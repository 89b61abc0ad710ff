import Mathlib.Tactic.Zify
import SocModel.Asm.Statements
import SocModel.Lib.Literal

/-!
# The elements of a data directive

`parse_data_element` splits the line at white space, reads the front of every piece with `strtol` and stores its low
bytes. The numbers of the line are what stands between commas and white space.

* `foldlM_parseElement_eq` : what becomes of a list of pieces;
* `listed` : the numbers of the line, `StoresListed` : the line is refused, or exactly they are stored;
* `storesListed_iff` : when that is so.
-/

namespace SocModel.Asm

open Lib

/-! ## Pieces -/

/-- The piece passes the range test. -/
def accepts (size : Nat) (tok : CStr) : Bool := ¬ ((strtol 0 tok).2 ∨ (strtol 0 tok).1 / 2 ^ (8 * size) > 0)

/-- The number `v` as `size` bytes. -/
def encode (size : Nat) (v : Int) : Nat := (v % 2 ^ (8 * size)).toNat

/-- There is room for the pieces up to the first one that is refused. -/
def Room (cfg : Config) (size : Nat) (toks : List CStr) (loc : Nat) : Prop :=
  toks.takeWhile (accepts size) = [] ∨ loc + (toks.takeWhile (accepts size)).length * size ≤ cfg.memorySize

instance (cfg : Config) (size : Nat) (toks : List CStr) (loc : Nat) : Decidable (Room cfg size toks loc) := by
  unfold Room
  infer_instance

/-- The bytes of the number at the front of a piece. -/
def leading (size : Nat) (tok : CStr) : Nat := encode size (strtol 0 tok).1

/-- The state with numbers stored from the location counter on. -/
def State.storeAll (s : State) (size : Nat) (vs : List Nat) : State :=
  { s with mem := Lib.storeAll s.mem s.memoff size vs, memoff := s.memoff + vs.length * size }

theorem State.storeAll_storeAll (s : State) (size v : Nat) (vs : List Nat) :
    (s.storeAll size [v]).storeAll size vs = s.storeAll size (v :: vs) := by
  unfold State.storeAll
  simp only [Lib.storeAll, List.length_cons, List.length_nil, Nat.succ_mul, Nat.zero_mul, Nat.zero_add]
  rw [Nat.add_assoc, Nat.add_comm size]

theorem pow_256 (size : Nat) : (256 : Int) ^ size = 2 ^ (8 * size) := by
  rw [pow_mul, show (2 : Int) ^ 8 = 256 from rfl]

theorem encode_mod {size : Nat} (hs : size ≤ 8) (v : Int) :
    encode size v % 256 ^ size = (BitVec.ofInt 64 v).toNat % 256 ^ size := by
  have hd : (2 : Int) ^ (8 * size) ∣ 2 ^ 64 := pow_dvd_pow 2 (by omega)
  have hpos : (0 : Int) < 2 ^ (8 * size) := Int.pow_pos (by decide)
  zify
  rw [encode, pow_256, Int.toNat_of_nonneg (Int.emod_nonneg _ hpos.ne'), BitVec.toNat_ofInt]
  push_cast
  rw [Int.toNat_of_nonneg (Int.emod_nonneg _ (by decide)), Int.emod_emod]
  exact (Int.emod_emod_of_dvd v hd).symm

theorem encode_lt (size : Nat) (v : Int) : encode size v < 256 ^ size := by
  have hpos : (0 : Int) < 2 ^ (8 * size) := Int.pow_pos (by decide)
  zify
  rw [encode, pow_256, Int.toNat_of_nonneg (Int.emod_nonneg _ hpos.ne')]
  exact_mod_cast Int.emod_lt_of_pos v hpos

theorem parseElement_eq {cfg : Config} {size : Nat} (hs : size ≤ 8) (s : State) (tok : CStr) :
    parseElement cfg size s tok =
      if accepts size tok then
        if s.memoff + size ≤ cfg.memorySize then .ok (s.storeAll size [leading size tok])
        else .error (.undefined .memoryRange)
      else .error (.exit 2) := by
  unfold parseElement accepts storeElement
  simp only [decide_not, Bool.not_eq_true', decide_eq_false_iff_not]
  by_cases ha : (strtol 0 tok).2 = true ∨ (strtol 0 tok).1 / 2 ^ (8 * size) > 0
  · rw [if_pos ha, if_neg (not_not.mpr ha)]
  · rw [if_neg ha, if_pos ha]
    split
    · rw [← store_congr s.mem s.memoff (encode_mod hs (strtol 0 tok).1)]
      simp [State.storeAll, Lib.storeAll, leading, bind, Except.bind, pure, Except.pure]
    · rfl

theorem room_cons_of_refused {cfg : Config} {size loc : Nat} {tok : CStr} {toks : List CStr}
    (h : accepts size tok = false) : Room cfg size (tok :: toks) loc := by
  unfold Room
  rw [List.takeWhile_cons, h]
  exact .inl rfl

theorem room_cons {cfg : Config} {size loc : Nat} {tok : CStr} {toks : List CStr} (h : accepts size tok = true) :
    Room cfg size (tok :: toks) loc ↔ loc + size ≤ cfg.memorySize ∧ Room cfg size toks (loc + size) := by
  unfold Room
  rw [List.takeWhile_cons, h, if_pos rfl, List.length_cons, Nat.succ_mul]
  simp only [reduceCtorEq, false_or]
  rcases toks.takeWhile (accepts size) with _ | ⟨t, ts⟩
  · simp
  · simp only [reduceCtorEq, false_or]
    omega

/-- The pieces up to the first one that is refused are stored, if there is room for them. -/
theorem foldlM_parseElement_eq {cfg : Config} {size : Nat} (hs : size ≤ 8) (toks : List CStr) (s : State) :
    toks.foldlM (parseElement cfg size) s =
      if Room cfg size toks s.memoff then
        if toks.all (accepts size) then .ok (s.storeAll size (toks.map (leading size))) else .error (.exit 2)
      else .error (.undefined .memoryRange) := by
  induction toks generalizing s with
  | nil =>
    rw [if_pos (.inl rfl)]
    simp [State.storeAll, Lib.storeAll]
    rfl
  | cons tok toks ih =>
    rw [List.foldlM_cons, parseElement_eq hs, List.all_cons]
    cases ha : accepts size tok with
    | false =>
      rw [if_pos (room_cons_of_refused ha)]
      rfl
    | true =>
      rw [if_pos rfl, Bool.true_and]
      by_cases hr : s.memoff + size ≤ cfg.memorySize
      · have hoff : (s.storeAll size [leading size tok]).memoff = s.memoff + size := by simp [State.storeAll]
        rw [if_pos hr]
        simp only [bind, Except.bind]
        rw [ih, hoff, State.storeAll_storeAll]
        simp only [room_cons ha, hr, true_and]
        rfl
      · rw [if_neg hr, if_neg fun hroom => hr ((room_cons ha).mp hroom).1]
        rfl

/-! ## The numbers of a line -/

/-- The number is a signed or an unsigned one of `size` bytes. -/
def Representable (size : Nat) (v : Int) : Prop := -2 ^ (8 * size - 1) ≤ v ∧ v < 2 ^ (8 * size)

instance (size : Nat) (v : Int) : Decidable (Representable size v) := by unfold Representable; infer_instance

/-- What stands between commas and white space. -/
def listedTokens (rest : CStr) : List CStr := tokens " \t\r\n,".toList rest.length rest

/-- The numbers listed on the line, `none` when a token is no number or a number does not fit. -/
def listed (size : Nat) (rest : CStr) : Option (List Int) :=
  (listedTokens rest).mapM fun t => (literal t).filter (Representable size ·)

/-- The line is refused, or its numbers are stored one behind another. -/
def StoresListed (cfg : Config) (size : Nat) (rest : CStr) (s : State) : Prop :=
  (∃ code, parseDataElement cfg size rest s = .error (.exit code)) ∨
    ∃ vs, listed size rest = some vs ∧
      parseDataElement cfg size rest s = .ok
        { s with
          mem := storeAll s.mem s.memoff size (vs.map (encode size))
          memoff := s.memoff + size * vs.length }

/-- The pieces between white space and the numbers listed spell the same bytes. -/
def Separated (size : Nat) (rest : CStr) : Prop :=
  ∃ vs, listed size rest = some vs ∧ (elements rest).map (leading size) = vs.map (encode size)

theorem map_mod_encode (size : Nat) (vs : List Int) :
    (vs.map (encode size)).map (· % 256 ^ size) = vs.map (encode size) := by
  rw [List.map_map]
  apply List.map_congr_left
  intro v _
  exact Nat.mod_eq_of_lt (encode_lt size v)

theorem map_mod_leading (size : Nat) (toks : List CStr) :
    (toks.map (leading size)).map (· % 256 ^ size) = toks.map (leading size) := by
  rw [List.map_map]
  apply List.map_congr_left
  intro t _
  exact Nat.mod_eq_of_lt (encode_lt size _)

/-- **Data directives** refuse a line or store the numbers it lists exactly when there is room for what they store
and either a piece is refused or the white space separates the numbers. -/
theorem storesListed_iff {size : Nat} (hs : size = 1 ∨ size = 2 ∨ size = 4) (cfg : Config) (rest : CStr) (s : State) :
    StoresListed cfg size rest s ↔
      Room cfg size (elements rest) s.memoff ∧
        ((∃ t ∈ elements rest, accepts size t = false) ∨ Separated size rest) := by
  have hpos : 0 < size := by omega
  have heq : parseDataElement cfg size rest s = _ := foldlM_parseElement_eq (by omega) (elements rest) s
  unfold StoresListed
  rw [heq]
  by_cases hroom : Room cfg size (elements rest) s.memoff
  · rw [if_pos hroom]
    by_cases hall : (elements rest).all (accepts size) = true
    · -- every piece is stored
      rw [if_pos hall]
      have hnone : ¬ ∃ t ∈ elements rest, accepts size t = false := by
        rintro ⟨t, ht, hf⟩
        rw [List.all_eq_true.mp hall t ht] at hf
        cases hf
      simp only [reduceCtorEq, exists_false, false_or, hroom, true_and, hnone, Except.ok.injEq]
      refine exists_congr fun vs => and_congr_right fun _ => ⟨fun h => ?_, fun h => ?_⟩
      · have hmem : storeAll s.mem s.memoff size ((elements rest).map (leading size)) =
            storeAll s.mem s.memoff size (vs.map (encode size)) := congrArg State.mem h
        have hoff : s.memoff + ((elements rest).map (leading size)).length * size = s.memoff + size * vs.length :=
          congrArg State.memoff h
        have hlen : ((elements rest).map (leading size)).length = (vs.map (encode size)).length := by
          rw [show (vs.map (encode size)).length = vs.length from List.length_map _]
          rw [Nat.mul_comm] at hoff
          exact Nat.eq_of_mul_eq_mul_left hpos (Nat.add_left_cancel hoff)
        have hinj := storeAll_injective hlen hmem
        rwa [map_mod_leading, map_mod_encode] at hinj
      · rw [h, State.storeAll, List.length_map, Nat.mul_comm]
    · rw [if_neg hall]
      have hex : ∃ t ∈ elements rest, accepts size t = false := by
        simpa using hall
      simp [hroom, hex]
  · rw [if_neg hroom]
    simp [hroom]

theorem storesListed_comma_space : StoresListed {} 4 " 7, -8\n".toList (State.init {}) :=
  (storesListed_iff (.inr (.inr rfl)) {} _ _).mpr ⟨by decide, .inr ⟨[7, -8], by decide, by decide⟩⟩

/-- Without white space the second number is dropped. -/
theorem not_storesListed_comma : ¬ StoresListed {} 4 " 1,2\n".toList (State.init {}) := by
  have hoff : (parseDataElement {} 4 " 1,2\n".toList (State.init {})).toOption.map State.memoff = some 4 := by decide
  rintro (⟨code, h⟩ | ⟨vs, hvs, h⟩)
  · rw [h] at hoff
    cases hoff
  · have hl : listed 4 " 1,2\n".toList = some [1, 2] := by decide
    obtain rfl := Option.some.inj (hl.symm.trans hvs)
    rw [h] at hoff
    exact absurd hoff (by decide)

end SocModel.Asm
