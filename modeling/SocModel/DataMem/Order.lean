import Mathlib.Data.List.Induction
import Mathlib.Tactic.IntervalCases
import SocModel.DataMem.Model
import SocModel.Lib.Reorder

/-!
# The order in which the data memory serves its requests

Whole packets one after another, in the order they were popped, are the specification (`serialBeats`, run by
`serveBeat`). The module runs beat by beat instead: beat `i` of the packet popped at tick `t` is due at
`t + lat + i`, so a beat of a burst runs after the first beats of packets popped up to three ticks later.

* `NoOvertaking` : no beat conflicts with a beat of a later packet that is due no later;
* `Inv` : what was served so far is a run of the beats in the order of their ticks, `inv_step`;
* `serves_in_order` : without overtaking, the memory and every value are those of the specification;
* `serves_in_order_overtaken` : a read behind a burst of writes that returns the value before them.
-/

namespace SocModel.DataMem

open Lib Bus

/-! ## The specification -/

/-- One beat, on its own. -/
def serveBeat (b : Beat) (m : BaseMemory) : Except Fault (BaseMemory × Served) :=
  match b.req with
  | .read p => do
    let v ← m.memRead p.op p.addr
    return (m, ⟨b, some v⟩)
  | .write p => do
    let m ← m.memWrite p.op p.addr p.data
    return (m, ⟨b, none⟩)

/-- The beats of the packets popped, packet after packet. -/
def serialBeats (lat : Nat) (popped : List (Nat × Packet)) : List Beat :=
  popped.zipIdx.flatMap fun r => beatsOf lat r.1.1 r.2 (Packet.reqs r.1.2)

namespace Req

def isWrite : Req → Bool
  | .read _ => false
  | .write _ => true

/-- The bytes a request accesses. -/
def bytes : Req → Set Nat
  | .read p => range p.addr.toNat p.op.readWidth
  | .write p => range p.addr.toNat p.op.writeWidth

/-- Two requests share a byte and one of them writes. -/
def Conflict (p q : Req) : Prop := (p.isWrite = true ∨ q.isWrite = true) ∧ ¬ Disjoint p.bytes q.bytes

end Req

/-- No beat conflicts with a beat of a packet popped later that is due no later. -/
def NoOvertaking (popped : List (Nat × Packet)) : Prop :=
  ∀ (k k' : Nat) (r r' : Nat × Packet) (i j : Nat) (p q : Req), k < k' →
    popped[k]? = some r → popped[k']? = some r' → (Packet.reqs r.2)[i]? = some p →
    (Packet.reqs r'.2)[j]? = some q → r'.1 + j ≤ r.1 + i → ¬ p.Conflict q

/-! ## Beats that commute -/

theorem commute_read_write {m m' : BaseMemory} {op op' : InstrType} {a a' v d : Word}
    (hd : Disjoint (range a.toNat op.readWidth) (range a'.toNat op'.writeWidth))
    (hw : m.memWrite op' a' d = .ok m') : m'.memRead op a = .ok v ↔ m.memRead op a = .ok v := by
  obtain ⟨-, rfl⟩ := BaseMemory.memWrite_eq_ok.mp hw
  rw [BaseMemory.memRead_eq_ok, BaseMemory.memRead_eq_ok, load_store_of_disjoint hd.symm]

theorem serveBeat_read {b : Beat} {p : ReadReq} (hb : b.req = .read p) {m m' : BaseMemory} {x : Served} :
    serveBeat b m = .ok (m', x) ↔ ∃ v, m.memRead p.op p.addr = .ok v ∧ m' = m ∧ x = ⟨b, some v⟩ := by
  unfold serveBeat
  rw [hb]
  cases h : m.memRead p.op p.addr with
  | error e => simp [h, bind, Except.bind]
  | ok v =>
    simp only [h, bind, Except.bind, pure, Except.pure, Except.ok.injEq, Prod.mk.injEq, exists_eq_left']
    exact and_congr eq_comm eq_comm

theorem serveBeat_write {b : Beat} {p : WriteReq} (hb : b.req = .write p) {m m' : BaseMemory} {x : Served} :
    serveBeat b m = .ok (m', x) ↔ m.memWrite p.op p.addr p.data = .ok m' ∧ x = ⟨b, none⟩ := by
  unfold serveBeat
  rw [hb]
  cases h : m.memWrite p.op p.addr p.data with
  | error e => simp [h, bind, Except.bind]
  | ok m1 =>
    simp only [h, bind, Except.bind, pure, Except.pure, Except.ok.injEq, Prod.mk.injEq]
    exact and_congr_right fun _ => eq_comm

theorem execAll_pair {α β ε σ : Type} {exec : α → σ → Except ε (σ × β)} {a b : α} {s t : σ} {x y : β} :
    execAll exec [a, b] s = .ok (t, [x, y]) ↔ ∃ m, exec a s = .ok (m, x) ∧ exec b m = .ok (t, y) := by
  rw [execAll_cons]
  constructor
  · rintro ⟨m, c, cs, h1, h2, h3⟩
    obtain ⟨n, d, ds, h4, h5, h6⟩ := execAll_cons.mp h2
    cases h5
    cases h6
    cases h3
    exact ⟨m, h1, h4⟩
  · rintro ⟨m, h1, h2⟩
    exact ⟨m, x, [y], h1, execAll_cons.mpr ⟨t, y, [], h2, rfl, rfl⟩, rfl⟩

theorem serveBeat_commute {b c : Beat} (h : ¬ b.req.Conflict c.req) : Commute serveBeat b c := by
  intro s t x y hs
  rw [execAll_pair] at hs ⊢
  obtain ⟨m, h1, h2⟩ := hs
  simp only [Req.Conflict, not_and, not_not] at h
  cases hb : b.req with
  | read p =>
    obtain ⟨v, hv, rfl, rfl⟩ := (serveBeat_read hb).mp h1
    cases hc : c.req with
    | read q =>
      obtain ⟨w, hw, rfl, rfl⟩ := (serveBeat_read hc).mp h2
      exact ⟨t, (serveBeat_read hc).mpr ⟨w, hw, rfl, rfl⟩, (serveBeat_read hb).mpr ⟨v, hv, rfl, rfl⟩⟩
    | write q =>
      obtain ⟨hw, rfl⟩ := (serveBeat_write hc).mp h2
      rw [hb, hc] at h
      exact ⟨t, (serveBeat_write hc).mpr ⟨hw, rfl⟩,
        (serveBeat_read hb).mpr ⟨v, (commute_read_write (h (.inr rfl)) hw).mpr hv, rfl, rfl⟩⟩
  | write p =>
    obtain ⟨hw, rfl⟩ := (serveBeat_write hb).mp h1
    cases hc : c.req with
    | read q =>
      obtain ⟨v, hv, rfl, rfl⟩ := (serveBeat_read hc).mp h2
      rw [hb, hc] at h
      exact ⟨s, (serveBeat_read hc).mpr ⟨v, (commute_read_write (h (.inl rfl)).symm hw).mp hv, rfl, rfl⟩,
        (serveBeat_write hb).mpr ⟨hw, rfl⟩⟩
    | write q =>
      obtain ⟨hw', rfl⟩ := (serveBeat_write hc).mp h2
      obtain ⟨hs, rfl⟩ := BaseMemory.memWrite_eq_ok.mp hw
      obtain ⟨hs', rfl⟩ := BaseMemory.memWrite_eq_ok.mp hw'
      rw [hb, hc] at h
      refine ⟨_, (serveBeat_write hc).mpr ⟨BaseMemory.memWrite_eq_ok.mpr ⟨hs', rfl⟩, rfl⟩,
        (serveBeat_write hb).mpr ⟨BaseMemory.memWrite_eq_ok.mpr ⟨hs, ?_⟩, rfl⟩⟩
      simp only [BaseMemory.mk.injEq, true_and]
      exact store_comm (h (.inl rfl))

/-! ## The specification's order -/

/-- Packets in the order popped, and the beats of one packet in order. -/
def Beat.Before (b c : Beat) : Prop := b.pkt < c.pkt ∨ b.pkt = c.pkt ∧ b.idx < c.idx

theorem Beat.Before.asymm {b c : Beat} (h : b.Before c) : ¬ c.Before b := by
  unfold Beat.Before at *
  omega

theorem mem_beatsOf {lat now k : Nat} {reqs : List Req} {b : Beat} :
    b ∈ beatsOf lat now k reqs ↔ b.pkt = k ∧ reqs[b.idx]? = some b.req ∧ b.due = now + b.idx + lat := by
  unfold beatsOf
  simp only [List.mem_map, List.mem_zipIdx_iff_getElem?]
  constructor
  · rintro ⟨r, hr, rfl⟩
    exact ⟨rfl, hr, rfl⟩
  · rintro ⟨hk, hr, hd⟩
    refine ⟨(b.req, b.idx), hr, ?_⟩
    cases b
    simp_all

theorem pairwise_beatsOf (lat now k : Nat) (reqs : List Req) :
    (beatsOf lat now k reqs).Pairwise Beat.Before := by
  rw [List.pairwise_iff_getElem]
  intro i j hi hj hij
  simp only [beatsOf, List.getElem_map, List.getElem_zipIdx]
  exact .inr ⟨rfl, show 0 + i < 0 + j by omega⟩

theorem serialBeats_append (lat : Nat) (popped : List (Nat × Packet)) (r : Nat × Packet) :
    serialBeats lat (popped ++ [r]) =
      serialBeats lat popped ++ beatsOf lat r.1 popped.length (Packet.reqs r.2) := by
  simp [serialBeats, List.zipIdx_append]

theorem mem_serialBeats {lat : Nat} {popped : List (Nat × Packet)} {b : Beat} :
    b ∈ serialBeats lat popped ↔ ∃ r, popped[b.pkt]? = some r ∧ (Packet.reqs r.2)[b.idx]? = some b.req ∧
      b.due = r.1 + b.idx + lat := by
  unfold serialBeats
  simp only [List.mem_flatMap, mem_beatsOf, List.mem_zipIdx_iff_getElem?]
  constructor
  · rintro ⟨r, hr, hk, hb, hd⟩
    exact ⟨r.1, hk ▸ hr, hb, hd⟩
  · rintro ⟨r, hr, hb, hd⟩
    exact ⟨(r, b.pkt), hr, rfl, hb, hd⟩

theorem pairwise_serialBeats (lat : Nat) (popped : List (Nat × Packet)) :
    (serialBeats lat popped).Pairwise Beat.Before := by
  induction popped using List.reverseRecOn with
  | nil => exact .nil
  | append_singleton popped r ih =>
    rw [serialBeats_append, List.pairwise_append]
    refine ⟨ih, pairwise_beatsOf _ _ _ _, fun b hb c hc => .inl ?_⟩
    obtain ⟨r', hr', -⟩ := mem_serialBeats.mp hb
    rw [(mem_beatsOf.mp hc).1]
    exact (List.getElem?_eq_some_iff.mp hr').1

/-! ## What was served so far -/

/-- The beats that wait in the queue of events. -/
def pendingBeats (events : List (Nat × Event)) : List Beat :=
  events.filterMap fun e => match e.2 with
    | .beat b => some b
    | .send => none

/-- The beats served and the beats scheduled are the beats popped; what was served is a run from the memory `m`,
in the order of the ticks, and what is scheduled is due from now on. -/
structure Inv (lat : Nat) (m : BaseMemory) (s : State) : Prop where
  all : (s.served.map (·.beat) ++ pendingBeats s.events).Perm (serialBeats lat s.popped)
  ran : execAll serveBeat (s.served.map (·.beat)) m = .ok (s.base, s.served)
  sorted : (s.served.map (·.beat)).Pairwise (·.due ≤ ·.due)
  past : ∀ x ∈ s.served, x.beat.due ≤ s.now
  future : ∀ e ∈ s.events, s.now ≤ e.1
  due : ∀ e ∈ s.events, ∀ b, e.2 = .beat b → e.1 = b.due

theorem inv_init (lat : Nat) (m : BaseMemory) : Inv lat m (init m) where
  all := .nil
  ran := rfl
  sorted := .nil
  past := by simp [init]
  future := by simp [init]
  due := by simp [init]

/-- The parts of the state that the invariant reads. -/
structure SameRun (s t : State) : Prop where
  base : t.base = s.base
  served : t.served = s.served
  events : t.events = s.events
  popped : t.popped = s.popped
  now : t.now = s.now

theorem Inv.of_same {lat : Nat} {m : BaseMemory} {s t : State} (h : Inv lat m s) (hs : SameRun s t) :
    Inv lat m t := by
  obtain ⟨hb, hv, he, hp, hn⟩ := hs
  refine ⟨?_, ?_, ?_, ?_, ?_, ?_⟩
  · rw [hv, he, hp]
    exact h.all
  · rw [hv, hb]
    exact h.ran
  · rw [hv]
    exact h.sorted
  · rw [hv, hn]
    exact h.past
  · rw [he, hn]
    exact h.future
  · rw [he]
    exact h.due

theorem trySendResponse_same (port : Port) (s : State) : SameRun s (trySendResponse port s) :=
  ⟨rfl, rfl, rfl, rfl, rfl⟩

theorem collect_same (s : State) (tid : Nat) (tk : Tracker) (n : Nat) (resp : Packet) :
    SameRun s (s.collect tid tk n resp) := by
  unfold State.collect
  split <;> exact ⟨rfl, rfl, rfl, rfl, rfl⟩

theorem pendingBeats_append (l l' : List (Nat × Event)) :
    pendingBeats (l ++ l') = pendingBeats l ++ pendingBeats l' := by
  simp [pendingBeats, List.filterMap_append]

theorem pendingBeats_beats (bs : List Beat) :
    pendingBeats (bs.map fun b : Beat => (b.due, Event.beat b)) = bs := by
  simp [pendingBeats, List.filterMap_map]

/-- A packet is popped: its beats are scheduled, and no event is scheduled for the past. -/
theorem Inv.popped {lat : Nat} {m : BaseMemory} {s t : State} {pkt : Packet} {d : Nat} (h : Inv lat m s)
    (hb : t.base = s.base) (hv : t.served = s.served) (hn : t.now = s.now) (hd : s.now ≤ d)
    (hp : t.popped = s.popped ++ [(s.now, pkt)])
    (he : t.events = s.events ++ ((beatsOf lat s.now s.popped.length (Packet.reqs pkt)).map
      (fun b : Beat => (b.due, Event.beat b)) ++ [(d, Event.send)])) : Inv lat m t where
  all := by
    rw [hv, he, hp, serialBeats_append, pendingBeats_append, pendingBeats_append, pendingBeats_beats,
      ← List.append_assoc]
    simpa [pendingBeats] using h.all.append_right _
  ran := by
    rw [hv, hb]
    exact h.ran
  sorted := by
    rw [hv]
    exact h.sorted
  past := by
    rw [hv, hn]
    exact h.past
  future := by
    intro e hm
    rw [he, List.mem_append, List.mem_append] at hm
    rw [hn]
    rcases hm with hm | hm | hm
    · exact h.future e hm
    · obtain ⟨b, hb, rfl⟩ := List.mem_map.mp hm
      have := (mem_beatsOf.mp hb).2.2
      simp only
      omega
    · rw [List.mem_singleton.mp hm]
      exact hd
  due := by
    intro e hm b hb
    rw [he, List.mem_append, List.mem_append] at hm
    rcases hm with hm | hm | hm
    · exact h.due e hm b hb
    · obtain ⟨c, -, rfl⟩ := List.mem_map.mp hm
      cases hb
      rfl
    · rw [List.mem_singleton.mp hm] at hb
      cases hb

theorem inv_acceptBurst {lat : Nat} {m : BaseMemory} {s t : State} {pkt : Packet} {tid n : Nat}
    (h : Inv lat m s) (hs : acceptBurst lat pkt tid n (Packet.reqs pkt) s = .ok t) : Inv lat m t := by
  unfold acceptBurst at hs
  split at hs
  · cases hs
  · cases hs
    exact h.popped (d := s.now + n + 1 + lat) rfl rfl rfl (by omega) rfl rfl

theorem inv_dmStep {lat : Nat} {m : BaseMemory} {s t : State} {port : Port} {pkt : Option Packet}
    (h : Inv lat m s) (hs : dmStep lat port pkt s = .ok t) : Inv lat m t := by
  have hsend : Inv lat m (if s.respQ.isEmpty then s else trySendResponse port s) := by
    split
    · exact h
    · exact h.of_same (trySendResponse_same port s)
  unfold dmStep at hs
  cases pkt with
  | none => exact Except.ok.inj hs ▸ hsend
  | some pkt =>
    cases pkt with
    | readReq p =>
      exact inv_acceptBurst hsend
        (show acceptBurst lat (.readReq p) p.tid p.burstSize (Packet.reqs (.readReq p)) _ = _ from hs)
    | writeReq p =>
      exact inv_acceptBurst hsend
        (show acceptBurst lat (.writeReq p) p.tid p.burstSize (Packet.reqs (.writeReq p)) _ = _ from hs)
    | readResp p =>
      cases hs
      exact hsend.popped (d := _ + lat) rfl rfl rfl (Nat.le_add_right _ _) rfl rfl
    | writeResp p =>
      cases hs
      exact hsend.popped (d := _ + lat) rfl rfl rfl (Nat.le_add_right _ _) rfl rfl

theorem memReadReqHandler_same {p : ReadReq} {s t : State} {v : Word}
    (hs : memReadReqHandler p s = .ok (t, v)) : s.base.memRead p.op p.addr = .ok v ∧ SameRun s t := by
  unfold memReadReqHandler at hs
  cases h : s.base.memRead p.op p.addr with
  | error e =>
    rw [h] at hs
    cases hs
  | ok w =>
    rw [h] at hs
    cases hs
    exact ⟨rfl, collect_same _ _ _ _ _⟩

theorem memWriteReqHandler_same {p : WriteReq} {s t : State} (hs : memWriteReqHandler p s = .ok t) :
    ∃ base, s.base.memWrite p.op p.addr p.data = .ok base ∧ SameRun { s with base } t := by
  unfold memWriteReqHandler at hs
  cases h : s.base.memWrite p.op p.addr p.data with
  | error e =>
    rw [h] at hs
    cases hs
  | ok base =>
    rw [h] at hs
    cases hs
    exact ⟨base, rfl, collect_same _ _ _ _ _⟩

/-- What a beat's event does to the memory, and what it returns, is what the beat does on its own. -/
theorem process_beat {port : Port} {b : Beat} {s t : State} (hs : process port (.beat b) s = .ok t) :
    ∃ base x, serveBeat b s.base = .ok (base, x) ∧ x.beat = b ∧
      SameRun { s with base, served := s.served ++ [x] } t := by
  unfold process at hs
  cases hb : b.req with
  | read p =>
    simp only [hb] at hs
    cases h : memReadReqHandler p s with
    | error e =>
      rw [h] at hs
      cases hs
    | ok r =>
      rw [h] at hs
      cases hs
      obtain ⟨hv, hsame⟩ := memReadReqHandler_same h
      exact ⟨s.base, ⟨b, some r.2⟩, (serveBeat_read hb).mpr ⟨r.2, hv, rfl, rfl⟩, rfl,
        ⟨hsame.base, congrArg (· ++ _) hsame.served, hsame.events, hsame.popped, hsame.now⟩⟩
  | write p =>
    simp only [hb] at hs
    cases h : memWriteReqHandler p s with
    | error e =>
      rw [h] at hs
      cases hs
    | ok r =>
      rw [h] at hs
      cases hs
      obtain ⟨base, hw, hsame⟩ := memWriteReqHandler_same h
      exact ⟨base, ⟨b, none⟩, (serveBeat_write hb).mpr ⟨hw, rfl⟩, rfl,
        ⟨hsame.base, congrArg (· ++ _) hsame.served, hsame.events, hsame.popped, hsame.now⟩⟩

theorem pendingBeats_eraseIdx_beat {l : List (Nat × Event)} {k d : Nat} {b : Beat}
    (hk : l[k]? = some (d, .beat b)) : (pendingBeats l).Perm (b :: pendingBeats (l.eraseIdx k)) := by
  have := (List.getElem_cons_eraseIdx_perm (List.getElem?_eq_some_iff.mp hk).1).symm.filterMap
    (fun e : Nat × Event => match e.2 with
      | .beat b => some b
      | .send => none)
  rw [(List.getElem?_eq_some_iff.mp hk).2] at this
  exact this

/-- A beat that is due is served: it leaves the queue of events for the end of the log. -/
theorem Inv.serve {lat : Nat} {m base : BaseMemory} {s t : State} {k : Nat} {b : Beat} {x : Served}
    (h : Inv lat m s) (hk : s.events[k]? = some (s.now, .beat b)) (hx : serveBeat b s.base = .ok (base, x))
    (hxb : x.beat = b)
    (hs : SameRun { s with base, served := s.served ++ [x], events := s.events.eraseIdx k } t) :
    Inv lat m t := by
  have hdue : s.now = b.due := h.due _ (List.mem_of_getElem? hk) b rfl
  have hperm := pendingBeats_eraseIdx_beat hk
  refine Inv.of_same (s := { s with base, served := s.served ++ [x], events := s.events.eraseIdx k })
    ⟨?_, ?_, ?_, ?_, ?_, ?_⟩ hs
  · refine List.Perm.trans ?_ h.all
    simp only [List.map_append, List.map_cons, List.map_nil, hxb, List.append_assoc, List.singleton_append]
    exact hperm.symm.append_left _
  · simp only [List.map_append, List.map_cons, List.map_nil, hxb]
    refine execAll_append.mpr ⟨s.base, s.served, [x], h.ran, ?_, rfl⟩
    exact execAll_cons.mpr ⟨base, x, [], hx, rfl, rfl⟩
  · simp only [List.map_append, List.map_cons, List.map_nil, hxb]
    refine List.pairwise_append.mpr ⟨h.sorted, List.pairwise_singleton _ _, fun c hc d hd => ?_⟩
    obtain ⟨y, hy, rfl⟩ := List.mem_map.mp hc
    rw [List.mem_singleton.mp hd, ← hdue]
    exact h.past y hy
  · intro y hy
    rcases List.mem_append.mp hy with hy | hy
    · exact h.past y hy
    · rw [List.mem_singleton.mp hy, hxb, hdue]
  · exact fun e he => h.future e (List.mem_of_mem_eraseIdx he)
  · exact fun e he => h.due e (List.mem_of_mem_eraseIdx he)

theorem pendingBeats_eraseIdx_send {l : List (Nat × Event)} {k d : Nat} (hk : l[k]? = some (d, .send)) :
    (pendingBeats l).Perm (pendingBeats (l.eraseIdx k)) := by
  have := (List.getElem_cons_eraseIdx_perm (List.getElem?_eq_some_iff.mp hk).1).symm.filterMap
    (fun e : Nat × Event => match e.2 with
      | .beat b => some b
      | .send => none)
  rw [(List.getElem?_eq_some_iff.mp hk).2] at this
  exact this

theorem inv_step {lat : Nat} {m : BaseMemory} {s t : State} {a : Act} (h : Inv lat m s)
    (hs : step lat s a = .next t) : Inv lat m t := by
  cases a with
  | dmStep port pkt =>
    simp only [step] at hs
    split at hs
    · cases hs
    · exact inv_dmStep (s := { s with stepped := true }) (h.of_same ⟨rfl, rfl, rfl, rfl, rfl⟩)
        (Outcome.ofExcept_eq_next.mp hs)
  | event k port =>
    simp only [step] at hs
    split at hs
    · cases hs
    · next due e hk =>
      split at hs
      · cases hs
      · next hdue =>
        rw [not_not] at hdue
        subst hdue
        rw [Outcome.ofExcept_eq_next] at hs
        cases e with
        | beat b =>
          obtain ⟨base, x, hx, hxb, hsame⟩ := process_beat hs
          exact h.serve hk hx hxb hsame
        | send =>
          cases hs
          refine Inv.of_same (s := { s with events := s.events.eraseIdx k }) ?_ (trySendResponse_same _ _)
          exact ⟨((pendingBeats_eraseIdx_send hk).append_left _).symm.trans h.all, h.ran, h.sorted, h.past,
            fun e he => h.future e (List.mem_of_mem_eraseIdx he),
            fun e he => h.due e (List.mem_of_mem_eraseIdx he)⟩
  | retry port =>
    cases hs
    exact h.of_same (trySendResponse_same port s)
  | tick =>
    simp only [step] at hs
    split at hs
    · cases hs
    · next hnone =>
      cases hs
      refine ⟨h.all, h.ran, h.sorted, fun x hx => Nat.le_succ_of_le (h.past x hx), fun e he => ?_, h.due⟩
      simp only [List.any_eq_true, not_exists, not_and, decide_eq_true_eq] at hnone
      exact Nat.lt_of_not_le (hnone e he)

/-! ## Whole runs -/

/-- Beats served in the order of their ticks are out of the specification's order only where they commute. -/
theorem served_order {lat : Nat} {popped : List (Nat × Packet)} {l : List Beat}
    (hl : l.Perm (serialBeats lat popped)) (hs : l.Pairwise (·.due ≤ ·.due)) (hn : NoOvertaking popped) :
    l.Pairwise fun b c => b.Before c ∨ Commute serveBeat b c := by
  have hnodup : l.Nodup := hl.nodup_iff.mpr
    ((pairwise_serialBeats lat popped).imp fun h he => (he ▸ h).asymm (he ▸ h))
  refine (hs.and hnodup).imp_of_mem ?_
  rintro b c hb hc ⟨hdue, hne⟩
  obtain ⟨r, hr, hbr, hbd⟩ := mem_serialBeats.mp (hl.subset hb)
  obtain ⟨r', hr', hcr, hcd⟩ := mem_serialBeats.mp (hl.subset hc)
  rcases Nat.lt_trichotomy b.pkt c.pkt with hlt | heq | hgt
  · exact .inl (.inl hlt)
  · -- the same packet: a smaller tick is a smaller index
    rw [heq, hr'] at hr
    cases hr
    rcases Nat.lt_trichotomy b.idx c.idx with h | h | h
    · exact .inl (.inr ⟨heq, h⟩)
    · refine absurd ?_ hne
      rw [h, hcr] at hbr
      cases b
      cases c
      simp_all
    · omega
  · refine .inr (serveBeat_commute fun hconf => ?_)
    refine hn c.pkt b.pkt r' r c.idx b.idx c.req b.req hgt hr' hr hcr hbr (by omega) ?_
    exact ⟨hconf.1.symm, fun hd => hconf.2 hd.symm⟩

/-- **Service order.** When all beats popped have been served and none was overtaken by a conflicting one, the
memory and what each beat returned are those of whole packets served in the order they were popped. -/
theorem serves_in_order {lat : Nat} {m : BaseMemory} {as : List Act} {t : State}
    (hr : Reaches (step lat) (init m) as t) (hq : pendingBeats t.events = [])
    (hn : NoOvertaking t.popped) :
    ∃ log, execAll serveBeat (serialBeats lat t.popped) m = .ok (t.base, log) ∧ log.Perm t.served := by
  have h : Inv lat m t := hr.inv' (fun _ _ _ => inv_step) (inv_init lat m)
  have hall := h.all
  rw [hq, List.append_nil] at hall
  exact execAll_perm (fun _ _ => Beat.Before.asymm) (pairwise_serialBeats lat t.popped) hall.symm
    (served_order hall h.sorted hn) h.ran

/-! ## A burst of writes and a read one tick behind it -/

/-- Four words stored at address 0. -/
def storeBurst : Packet :=
  .writeReq
    { burstLength := 2
      payloads := [0, 1, 2, 3].map fun i : Nat =>
        { caller := .dma, tid := 0, instr := {}, op := .SW, addr := BitVec.ofNat 32 (4 * i)
          data := BitVec.ofNat 32 (i + 1) }
      srcIdx := 1
      dstIdx := 0
      tid := 0 }

def loadWord (addr : Word) : Packet :=
  .readReq (constructMemReadpktNonBurst { op := .LW } .LW addr {} .cpu 1)

/-- The burst is popped at tick 0 and the load at tick 1; with latency 1 the load is served at tick 2 and the last
word is stored at tick 4. -/
def burstThenLoad (addr : Word) : List Act :=
  [.dmStep ⟨false, true⟩ (some storeBurst), .tick, .dmStep ⟨false, true⟩ (some (loadWord addr)),
    .event 0 ⟨false, true⟩, .tick, .event 0 ⟨false, true⟩, .event 3 ⟨false, true⟩, .tick,
    .event 0 ⟨false, true⟩, .tick, .event 0 ⟨false, true⟩]

def zeroMemory : BaseMemory := ⟨65536, fun _ => 0⟩

/-- The state after the run. -/
def afterLoad (addr : Word) : State :=
  match run (step 1) (init zeroMemory) (burstThenLoad addr) with
  | .next t => t
  | _ => init zeroMemory

/-- The load of the fourth word returns 0, the packets one after another make it return 4. -/
theorem serves_in_order_overtaken : ¬ ∀ (lat : Nat) (m : BaseMemory) (as : List Act) (t : State),
    Reaches (step lat) (init m) as t → pendingBeats t.events = [] →
      ∃ log, execAll serveBeat (serialBeats lat t.popped) m = .ok (t.base, log) ∧ log.Perm t.served := by
  intro h
  obtain ⟨log, h1, h2⟩ := h 1 zeroMemory (burstThenLoad 12) (afterLoad 12) rfl (by decide +kernel)
  have hlog := congrArg (fun r => (r.toOption.map Prod.snd).getD []) h1
  simp only [Except.toOption, Option.map_some, Option.getD_some] at hlog
  rw [← hlog] at h2
  exact absurd h2 (by decide +kernel)

theorem noOvertaking_disjoint : NoOvertaking (afterLoad 16).popped := by
  have hpop : (afterLoad 16).popped = [(0, storeBurst), (1, loadWord 16)] := by decide +kernel
  rw [hpop]
  rintro k k' r r' i j p q hk hr hr' hp hq - ⟨-, hd⟩
  have hk' := (List.getElem?_eq_some_iff.mp hr').1
  simp only [List.length_cons, List.length_nil] at hk'
  obtain ⟨rfl, rfl⟩ : k = 0 ∧ k' = 1 := by omega
  cases hr
  cases hr'
  obtain ⟨hj, hq⟩ := List.getElem?_eq_some_iff.mp hq
  obtain ⟨hi, hp⟩ := List.getElem?_eq_some_iff.mp hp
  subst hp hq
  have hj : j = 0 := by simpa [Packet.reqs, loadWord, constructMemReadpktNonBurst] using hj
  have hi : i < 4 := hi
  subst hj
  apply hd
  interval_cases i
  · exact disjoint_range (a := 0) (n := 4) (b := 16) (m := 4) (by omega)
  · exact disjoint_range (a := 4) (n := 4) (b := 16) (m := 4) (by omega)
  · exact disjoint_range (a := 8) (n := 4) (b := 16) (m := 4) (by omega)
  · exact disjoint_range (a := 12) (n := 4) (b := 16) (m := 4) (by omega)

theorem serves_in_order_disjoint :
    ∃ log, execAll serveBeat (serialBeats 1 (afterLoad 16).popped) zeroMemory =
      .ok ((afterLoad 16).base, log) ∧ log.Perm (afterLoad 16).served :=
  @serves_in_order 1 zeroMemory (burstThenLoad 16) (afterLoad 16) rfl (by decide +kernel)
    noOvertaking_disjoint

end SocModel.DataMem
