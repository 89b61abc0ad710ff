import SocModel.Sa.Load

/-!
# DMA_SIZE_CFG between the systolic array and the DMA

The array encodes a transfer in one word (`sizeCfg`, with different masks for the two matrices), the DMA decodes it
(`Dma.decode`).

* `decoded` : the transfer that the DMA makes of a word, `cfgWords` : the words that a queue writes to the register;
* `Configured` : an accepted multiplication has transfers that fit the fields, and the DMA decodes those it needs;
* `configured_iff` : that is so for square matrices only.
-/

namespace SocModel.Sa

open Lib Bus Dma

/-! ## What the DMA decodes -/

/-- The shape of a transfer. -/
structure Geometry where
  width : Nat
  height : Nat
  sourceStride : Nat
  destStride : Nat
  deriving DecidableEq, Repr

/-- The fields that `DMAController::initialized_transaction` sets. -/
def geometryOf (d : Dma.State) : Geometry := ⟨d.trueWidth, d.trueHeight, d.sourceStride, d.destStride⟩

def decoded (cfg : Word) : Geometry := geometryOf (decode { Dma.init with dmaSizeCfg := cfg })

/-- Whatever the DMA did before, a write of the register and a write of ENABLE set this shape. -/
theorem geometryOf_enable (d : Dma.State) (ports : Nat → Port) (cfg : Word) {data : Word}
    (hd : data.getLsbD 0 = true) : ∃ d₁ d₂, Dma.writeRegister ports d 0xC cfg = .ok d₁ ∧
      Dma.writeRegister ports d₁ 0x0 data = .ok d₂ ∧ geometryOf d₂ = decoded cfg :=
  ⟨{ d with dmaSizeCfg := cfg }, _, rfl, Dma.writeRegister_enable ports _ hd, rfl⟩

theorem decoded_sizeCfg {stride tw th : Word} (hs : stride.toNat < 256) (hw : tw.toNat < 256) (hh : th.toNat < 256) :
    decoded (sizeCfg stride tw th) = ⟨tw.toNat + 1, th.toNat + 1, stride.toNat, stride.toNat⟩ := by
  obtain ⟨h24, h16, h8, h0⟩ := cfgByte_sizeCfg hs hw hh
  simp only [decoded, geometryOf, decode, h24, h16, h8, h0]

/-! ## What the array writes -/

/-- The word that a request writes to DMA_SIZE_CFG. -/
def cfgWord : Packet → Option Word
  | .writeReq p =>
    match p.payloads with
    | [q] => if q.addr = 0xF00C then some q.data else none
    | _ => none
  | _ => none

def cfgWords (q : List Packet) : List Word := q.filterMap cfgWord

/-- The requests that joined the queue between two states. -/
def newRequests (s t : State) : List Packet := t.reqQ.drop s.reqQ.length

theorem cfgWords_programDma (src dst cfg : Word) (s : State) :
    cfgWords (newRequests s (programDma src dst cfg s)) = [cfg] := by
  have h : newRequests s (programDma src dst cfg s) =
      [.writeReq (constructMemWritepktNonBurst {} .SW 0xF004 src .sa s.nextTid),
        .writeReq (constructMemWritepktNonBurst {} .SW 0xF008 dst .sa (s.nextTid + 1)),
        .writeReq (constructMemWritepktNonBurst {} .SW 0xF00C cfg .sa (s.nextTid + 2)),
        .writeReq (constructMemWritepktNonBurst {} .SW 0xF000 1 .sa (s.nextTid + 3))] := by
    simp only [newRequests, programDma, pokeDMAReady, dmaWrite, State.request, State.schedule, List.append_assoc,
      List.drop_left]
    rfl
  rw [h]
  rfl

/-! ## The two words -/

theorem toNat_and_FF_mod (w : Word) : (w &&& 0xFF).toNat = w.toNat % 256 := Nat.and_two_pow_sub_one_eq_mod w.toNat 8

/-- The word for the first matrix, whatever the registers hold: each field keeps its low eight bits. -/
theorem decoded_matA (s : State) : decoded s.config.programA.cfg =
    ⟨(s.K - 1).toNat % 256 + 1, (s.M - 1).toNat % 256 + 1, s.strideA.toNat % 256, s.strideA.toNat % 256⟩ := by
  have h := @decoded_sizeCfg (s.strideA &&& 0xFF) ((s.K - 1) &&& 0xFF) ((s.M - 1) &&& 0xFF)
  simp only [toNat_and_FF_mod] at h
  exact h (Nat.mod_lt _ (by decide)) (Nat.mod_lt _ (by decide)) (Nat.mod_lt _ (by decide))

/-- The word for the second matrix has the shape of the first one; without a mask on its size fields. -/
theorem decoded_matB {s : State} (hK : (s.K - 1).toNat < 256) (hM : (s.M - 1).toNat < 256) :
    decoded s.config.programB.cfg =
      ⟨(s.K - 1).toNat + 1, (s.M - 1).toNat + 1, s.strideB.toNat % 256, s.strideB.toNat % 256⟩ := by
  have h := @decoded_sizeCfg (s.strideB &&& 0xFF) (s.K - 1) (s.M - 1)
  simp only [toNat_and_FF_mod] at h
  exact h (Nat.mod_lt _ (by decide)) hK hM

theorem cfgWords_matA (s : State) : cfgWords (newRequests s (askDMAtoWrite_matA s)) = [s.config.programA.cfg] :=
  cfgWords_programDma ..

theorem cfgWords_matB (s : State) : cfgWords (newRequests s (askDMAtoWrite_matB s)) = [s.config.programB.cfg] :=
  cfgWords_programDma ..

/-! ## Accepted multiplications -/

/-- The two assertions of `initialized_transaction`. -/
def Asserted (s : State) : Prop :=
  (s.aAddr.toNat % 4 = 0 ∧ s.bAddr.toNat % 4 = 0 ∧ s.cAddr.toNat % 4 = 0) ∧
    (s.M * s.K).toInt ≤ 2048 ∧ (s.K * s.N).toInt ≤ 2048

instance (s : State) : Decidable (Asserted s) := by unfold Asserted; infer_instance

theorem initializedTransaction_of_asserted {s : State} (h : Asserted s) :
    ∃ t, initializedTransaction s = .ok t ∧
      cfgWords (newRequests s t) = [s.config.programA.cfg] := by
  refine ⟨_, ?_, cfgWords_matA { s with
    done := false
    enabled := true
    phase := .readMatA
    aMatrix := fun _ _ => 0
    bMatrix := fun _ _ => 0
    cMatrix := fun _ _ => 0 }⟩
  unfold initializedTransaction
  dsimp only
  rw [if_neg (not_not_intro h.1), if_neg (not_not_intro h.2)]

theorem asserted_of_initializedTransaction {s t : State} (h : initializedTransaction s = .ok t) : Asserted s := by
  unfold initializedTransaction at h
  dsimp only at h
  by_cases h1 : s.aAddr.toNat % 4 = 0 ∧ s.bAddr.toNat % 4 = 0 ∧ s.cAddr.toNat % 4 = 0
  · rw [if_neg (not_not_intro h1)] at h
    by_cases h2 : (s.M * s.K).toInt ≤ 2048 ∧ (s.K * s.N).toInt ≤ 2048
    · exact ⟨h1, h2⟩
    · rw [if_pos h2] at h
      exact absurd h (by simp)
  · rw [if_pos h1] at h
    exact absurd h (by simp)

/-- Every dimension less one and every stride fits eight bits. -/
structure Encodable (s : State) : Prop where
  M : 1 ≤ s.M.toNat ∧ s.M.toNat ≤ 256
  K : 1 ≤ s.K.toNat ∧ s.K.toNat ≤ 256
  N : 1 ≤ s.N.toNat ∧ s.N.toNat ≤ 256
  strideA : s.strideA.toNat < 256
  strideB : s.strideB.toNat < 256

/-- The array writes one word to DMA_SIZE_CFG on its way from `s` to `t`, and the DMA decodes it to `g`. -/
def Asks (s t : State) (g : Geometry) : Prop := (cfgWords (newRequests s t)).map decoded = [g]

instance (s t : State) (g : Geometry) : Decidable (Asks s t g) := by unfold Asks; infer_instance

/-- An accepted configuration fits the fields, and the DMA is asked for `M` rows of `K` columns of the first matrix
and for `K` rows of `N` columns of the second one. -/
structure Configured (s : State) : Prop where
  encodable : ∀ t, initializedTransaction s = .ok t → Encodable s
  matA : ∀ t, initializedTransaction s = .ok t →
    Asks s t ⟨s.K.toNat, s.M.toNat, s.strideA.toNat, s.strideA.toNat⟩
  matB : ∀ t, initializedTransaction s = .ok t →
    Asks s (askDMAtoWrite_matB s) ⟨s.N.toNat, s.K.toNat, s.strideB.toNat, s.strideB.toNat⟩

theorem Encodable.asks {s : State} (h : Encodable s) :
    Asks s (askDMAtoWrite_matB s) ⟨s.K.toNat, s.M.toNat, s.strideB.toNat, s.strideB.toNat⟩ ∧
      ∀ t, initializedTransaction s = .ok t →
        Asks s t ⟨s.K.toNat, s.M.toNat, s.strideA.toNat, s.strideA.toNat⟩ := by
  have hK := h.K
  have hM := h.M
  have hK1 := toNat_sub_one hK.1
  have hM1 := toNat_sub_one hM.1
  have hA := h.strideA
  have hB := h.strideB
  refine ⟨?_, fun t ht => ?_⟩
  · unfold Asks
    rw [cfgWords_matB, List.map_singleton, decoded_matB (by omega) (by omega), hK1, hM1, Nat.mod_eq_of_lt hB,
      Nat.sub_add_cancel hK.1, Nat.sub_add_cancel hM.1]
  · obtain ⟨t', ht', hw⟩ := initializedTransaction_of_asserted (asserted_of_initializedTransaction ht)
    rw [ht] at ht'
    obtain rfl := Except.ok.inj ht'
    unfold Asks
    rw [hw, List.map_singleton, decoded_matA, hK1, hM1, Nat.mod_eq_of_lt hA, Nat.mod_eq_of_lt (by omega),
      Nat.mod_eq_of_lt (by omega), Nat.sub_add_cancel hK.1, Nat.sub_add_cancel hM.1]

/-- **Both sides of DMA_SIZE_CFG agree**, and what does not fit is rejected, exactly when every configuration that
passes the assertions is a square one of at most 256 rows. -/
theorem configured_iff (s : State) : Configured s ↔
    (Asserted s → Encodable s ∧ s.M = s.K ∧ s.K = s.N) := by
  constructor
  · intro h hs
    obtain ⟨t, ht, -⟩ := initializedTransaction_of_asserted hs
    have he := h.encodable t ht
    have hB := h.matB t ht
    unfold Asks at hB
    rw [he.asks.1] at hB
    have hg := List.singleton_inj.mp hB
    refine ⟨he, BitVec.eq_of_toNat_eq ?_, BitVec.eq_of_toNat_eq ?_⟩
    · exact congrArg Geometry.height hg
    · exact congrArg Geometry.width hg
  · intro h
    have hs : ∀ t, initializedTransaction s = .ok t → Encodable s ∧ s.M = s.K ∧ s.K = s.N :=
      fun t ht => h (asserted_of_initializedTransaction ht)
    refine ⟨fun t ht => (hs t ht).1, fun t ht => (hs t ht).1.asks.2 t ht, fun t ht => ?_⟩
    obtain ⟨he, hMK, hKN⟩ := hs t ht
    have hB := he.asks.1
    rw [hMK] at hB
    rw [← hKN]
    exact hB

/-- A row times a matrix: the second transfer is one row of two columns, not two rows of three. -/
theorem not_configured_rowTimesMatrix :
    ¬ Configured { init with M := 1, K := 2, N := 3, strideA := 2, strideB := 3 } := by
  intro h
  obtain ⟨t, ht, -⟩ := initializedTransaction_of_asserted
    (s := { init with M := 1, K := 2, N := 3, strideA := 2, strideB := 3 }) (by decide)
  exact absurd (h.matB t ht) (by decide)

end SocModel.Sa
