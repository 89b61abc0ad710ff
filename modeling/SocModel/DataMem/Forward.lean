import SocModel.DataMem.Bursts
import SocModel.DataMem.Confined

/-!
# The data memory goes on

As long as a beat or a response waits, some action of the data memory brings it forward, and a request can be popped once
nothing else can happen in the tick.

* `backlog`, `wait` : what waits, the ticks until it is due; `Lighter` : one of them is less;
* `exists_lighter` : such an action, `pop_backlog` : what popping a request adds.
-/

namespace SocModel.DataMem

open Lib Bus

/-- What waits in the data memory: the events, and less for the responses. -/
def backlog (s : State) : Nat := 3 * s.events.length + 2 * s.respQ.length

/-- The ticks until the events are due. -/
def wait (s : State) : Nat := (s.events.map fun e => e.1 - s.now).sum + if s.stepped then 1 else 0

/-- From `s` to `t` what waits is less, the responses sent counted, or it waits for fewer ticks. -/
def Lighter (s t : State) : Prop :=
  backlog t + (t.sent.length - s.sent.length) < backlog s ∨ backlog t = backlog s ∧ t.sent = s.sent ∧ wait t < wait s

section

variable {lat : Nat} {s t : State}

/-- A response leaves the queue. -/
theorem backlog_trySend (port : Port) (s : State) :
    backlog (trySendResponse port s) + ((trySendResponse port s).sent.length - s.sent.length) ≤ backlog s := by
  have hdrain := congrArg List.length (drain_append port s.respQ)
  simp only [trySendResponse, backlog, List.length_append] at hdrain ⊢
  omega

theorem lighter_retry (hq : s.respQ ≠ []) : Lighter s (trySendResponse ⟨false, true⟩ s) := by
  obtain ⟨p, ps, hp⟩ := List.exists_cons_of_ne_nil hq
  left
  simp only [trySendResponse, backlog, drain, hp, Port.transfers, Bool.not_false, Bool.and_self, if_true,
    List.length_append, List.length_cons, List.length_nil]
  omega

theorem collect_backlog (s : State) (tid : Nat) (tk : Tracker) (n : Nat) (resp : Packet) :
    backlog (s.collect tid tk n resp) ≤ backlog s + 2 ∧ (s.collect tid tk n resp).sent = s.sent := by
  unfold State.collect backlog
  split
  · refine ⟨?_, rfl⟩
    dsimp only
    rw [List.length_append, List.length_singleton]
    omega
  · exact ⟨Nat.le_add_right _ _, rfl⟩

/-- A beat adds at most its response. -/
theorem process_beat_backlog {port : Port} {b : Beat} (h : process port (.beat b) s = .ok t) :
    backlog t ≤ backlog s + 2 ∧ t.sent = s.sent := by
  unfold process at h
  rcases hb : b.req with p | p
  · simp only [hb] at h
    obtain ⟨⟨u, w⟩, hu, h⟩ := Except.bind_eq_ok.mp h
    obtain ⟨w', -, hw⟩ := Except.bind_eq_ok.mp hu
    cases hw
    cases h
    exact collect_backlog s _ _ _ _
  · simp only [hb] at h
    obtain ⟨u, hu, h⟩ := Except.bind_eq_ok.mp h
    obtain ⟨base, -, hw⟩ := Except.bind_eq_ok.mp hu
    cases hw
    cases h
    exact collect_backlog { s with base } _ _ _ _

theorem step_due {k : Nat} {e : Event} (port : Port) (hk : s.events[k]? = some (s.now, e)) :
    step lat s (.event k port) = .ofExcept (process port e { s with events := s.events.eraseIdx k }) := by
  simp only [step, hk, ne_eq, not_true, if_false]

theorem backlog_erase {k : Nat} {e : Nat × Event} (hk : s.events[k]? = some e) :
    backlog { s with events := s.events.eraseIdx k } + 3 = backlog s := by
  have hlt := (List.getElem?_eq_some_iff.mp hk).1
  unfold backlog
  simp only [List.length_eraseIdx_of_lt hlt]
  omega

variable (lat) in
/-- An event that is due runs. -/
theorem exists_lighter_event {k : Nat} {e : Event} (hk : s.events[k]? = some (s.now, e))
    (hb : ∀ b ∈ pendingBeats s.events, ∃ m x, serveBeat b s.base = .ok (m, x)) :
    ∃ t, step lat s (.event k ⟨false, true⟩) = .next t ∧ Lighter s t := by
  have hbacklog := backlog_erase hk
  rw [step_due ⟨false, true⟩ hk]
  rcases e with b | _
  · obtain ⟨m, x, hx⟩ := hb b (List.mem_filterMap.mpr ⟨_, List.mem_of_getElem? hk, rfl⟩)
    obtain ⟨t, ht⟩ := process_of_serveBeat ⟨false, true⟩ (s := { s with events := s.events.eraseIdx k }) hx
    obtain ⟨hle, hsent⟩ := process_beat_backlog ht
    refine ⟨t, Outcome.ofExcept_eq_next.mpr ht, .inl ?_⟩
    rw [hsent]
    dsimp only
    omega
  · refine ⟨_, rfl, .inl ?_⟩
    have := backlog_trySend ⟨false, true⟩ { s with events := s.events.eraseIdx k }
    dsimp only at this
    omega

theorem sum_sub_succ (l : List (Nat × Event)) (now : Nat) (h : ∀ e ∈ l, now < e.1) :
    (l.map fun e => e.1 - (now + 1)).sum + l.length = (l.map fun e => e.1 - now).sum := by
  induction l with
  | nil => rfl
  | cons e l ih =>
    have hl := ih fun x hx => h x (List.mem_cons_of_mem e hx)
    have he := h e List.mem_cons_self
    simp only [List.map_cons, List.sum_cons, List.length_cons]
    omega

variable (lat) in
/-- The clock goes on when nothing is due. -/
theorem lighter_tick (hn : ∀ e ∈ s.events, s.now < e.1) (hw : s.events ≠ [] ∨ s.stepped = true) :
    ∃ t, step lat s .tick = .next t ∧ Lighter s t := by
  have hnone : ¬ s.events.any (·.1 ≤ s.now) = true := by
    simp only [List.any_eq_true, decide_eq_true_eq, not_exists, not_and, Nat.not_le]
    exact hn
  refine ⟨{ s with now := s.now + 1, stepped := false }, if_neg hnone, .inr ⟨rfl, rfl, ?_⟩⟩
  have hsum := sum_sub_succ s.events s.now hn
  simp only [wait, Bool.false_eq_true, if_false]
  rcases hw with hw | hw
  · have := List.length_pos_iff.mpr hw
    omega
  · rw [hw, if_pos rfl]
    omega

variable (lat) in
/-- **Whatever waits in the data memory can go on**, and so can the clock behind a call of `step`. -/
theorem exists_lighter (hfuture : ∀ e ∈ s.events, s.now ≤ e.1)
    (hb : ∀ b ∈ pendingBeats s.events, ∃ m x, serveBeat b s.base = .ok (m, x))
    (h : s.respQ ≠ [] ∨ s.events ≠ [] ∨ s.stepped = true) :
    ∃ a t, a.pops = [] ∧ step lat s a = .next t ∧ Lighter s t := by
  by_cases hq : s.respQ = []
  · by_cases hn : ∀ e ∈ s.events, s.now < e.1
    · obtain ⟨t, ht, hl⟩ := lighter_tick lat hn (h.resolve_left (not_not.mpr hq))
      exact ⟨.tick, t, rfl, ht, hl⟩
    · simp only [not_forall, Nat.not_lt] at hn
      obtain ⟨e, he, hle⟩ := hn
      obtain ⟨k, hk⟩ := List.getElem?_of_mem he
      rw [show e = (s.now, e.2) from Prod.ext (Nat.le_antisymm hle (hfuture e he)) rfl] at hk
      obtain ⟨t, ht, hl⟩ := exists_lighter_event lat hk hb
      exact ⟨.event k ⟨false, true⟩, t, rfl, ht, hl⟩
  · exact ⟨.retry ⟨false, true⟩, _, rfl, rfl, lighter_retry hq⟩

/-- A request is popped: its beats and one more event wait. -/
theorem pop_backlog {pkt : Packet} {port : Port} (hs : step lat s (.dmStep port (some pkt)) = .next t) :
    backlog t + (t.sent.length - s.sent.length) ≤ backlog s + 3 * ((Packet.reqs pkt).length + 1) := by
  simp only [step] at hs
  split at hs
  · cases hs
  have hs := Outcome.ofExcept_eq_next.mp hs
  unfold dmStep at hs
  have hfirst : ∀ u : State, u = (if s.respQ.isEmpty then { s with stepped := true }
      else trySendResponse port { s with stepped := true }) →
      backlog u + (u.sent.length - s.sent.length) ≤ backlog s := by
    rintro u rfl
    split
    · simp [backlog]
    · exact backlog_trySend port { s with stepped := true }
  obtain ⟨u, hu⟩ : ∃ u, u = (if s.respQ.isEmpty then { s with stepped := true }
      else trySendResponse port { s with stepped := true }) := ⟨_, rfl⟩
  have hle := hfirst u hu
  simp only [← hu] at hs
  have haccept : backlog t = backlog u + 3 * ((Packet.reqs pkt).length + 1) := by
    have hburst : ∀ tid n, acceptBurst lat pkt tid n (Packet.reqs pkt) u = .ok t →
        backlog t = backlog u + 3 * ((Packet.reqs pkt).length + 1) := by
      intro tid n h
      unfold acceptBurst at h
      split at h
      · cases h
      · cases h
        simp [backlog, State.schedule, beatsOf]
        omega
    rcases pkt with p | p | p | p
    · exact hburst _ _ hs
    · exact hburst _ _ hs
    · cases hs
      simp [backlog, State.schedule, Packet.reqs]
      omega
    · cases hs
      simp [backlog, State.schedule, Packet.reqs]
      omega
  rw [(acceptPacket_records hs).1]
  omega

end

end SocModel.DataMem
