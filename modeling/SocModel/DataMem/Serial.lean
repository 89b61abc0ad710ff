import SocModel.DataMem.Bursts

/-!
# Requests of a single beat

When every packet has one beat, the beats are due at different ticks, in the order in which the packets were popped. So
the data memory is a queue: it serves the beats in that order, and the responses leave in it.

* `Serial` : the invariant, `State.beats` : the requests that wait;
* `Emits` : the responses that an action adds behind those that wait;
* `pop_single`, `event_beat`, `event_send`, `step_tick` : the actions.
-/

namespace SocModel.DataMem

open Lib Bus

/-- A packet of the one beat `r`. -/
inductive Single : Packet → Req → Prop
  | read {p : Burst ReadReq} {q : ReadReq} (hl : p.burstLength = 0) (hp : p.payloads = [q]) :
      Single (.readReq p) (.read q)
  | write {p : Burst WriteReq} {q : WriteReq} (hl : p.burstLength = 0) (hp : p.payloads = [q]) :
      Single (.writeReq p) (.write q)

theorem Single.reqs {p : Packet} {r : Req} (h : Single p r) : Packet.reqs p = [r] := by
  rcases h with ⟨hl, hp⟩ | ⟨hl, hp⟩ <;> simp [Packet.reqs, hp]

/-- The response to a single beat. -/
def answerTo : Req → Option Word → Packet
  | .read q, v => .readResp ((constructMemReadRespPkt [readAnswer q (v.getD 0)] .dm q.caller 0).setTID q.tid)
  | .write q, _ => .writeResp ((constructMemWriteRespPkt [writeAnswer q] .dm q.caller 0).setTID q.tid)

/-- The requests that wait for their event, first come first. -/
def State.beats (s : State) : List Req := (pendingBeats s.events).map (·.req)

/-- The responses `more` enter the queue behind those in it; some of the queue may leave. -/
structure Emits (s t : State) (more : List Packet) : Prop where
  sent : s.sent <+: t.sent
  out : t.sent ++ t.respQ = s.sent ++ s.respQ ++ more

structure Serial (lat : Nat) (s : State) : Prop where
  fresh : ∀ tid tk, s.pending tid = some tk → tk = { expected := 1 }
  future : ∀ e ∈ s.events, s.now ≤ e.1
  due : ∀ e ∈ s.events, ∀ b, e.2 = .beat b → e.1 = b.due
  sorted : (pendingBeats s.events).Pairwise (·.due < ·.due)
  recent : ∀ b ∈ pendingBeats s.events, b.due < s.now + lat + if s.stepped then 1 else 0

theorem serial_init (lat : Nat) (m : BaseMemory) : Serial lat (init m) where
  fresh := by simp [init]
  future := by simp [init]
  due := by simp [init]
  sorted := .nil
  recent := by simp [init, pendingBeats]

section

variable {lat : Nat} {s t : State}

/-- What leaves the queue in the action, and what is then in it. -/
theorem Emits.drop {more : List Packet} (h : Emits s t more) :
    t.sent.drop s.sent.length ++ t.respQ = s.respQ ++ more := by
  obtain ⟨new, hnew⟩ := h.sent
  have hout := h.out
  rw [← hnew, List.append_assoc, List.append_assoc, List.append_cancel_left_eq] at hout
  rw [← hnew, List.drop_left, hout]

theorem emits_trySend (port : Port) (s : State) : Emits s (trySendResponse port s) [] :=
  ⟨List.prefix_append _ _, by rw [trySendResponse_queue, List.append_nil]⟩

/-- The invariant reads the trackers, the events and the clock. -/
theorem Serial.of_eq (h : Serial lat s) (hp : t.pending = s.pending) (he : t.events = s.events) (hn : t.now = s.now)
    (hs : t.stepped = s.stepped) : Serial lat t := by
  refine ⟨?_, ?_, ?_, ?_, ?_⟩
  · rw [hp]
    exact h.fresh
  · rw [he, hn]
    exact h.future
  · rw [he]
    exact h.due
  · rw [he]
    exact h.sorted
  · rw [he, hn, hs]
    exact h.recent

theorem Serial.trySend (h : Serial lat s) (port : Port) : Serial lat (trySendResponse port s) :=
  h.of_eq rfl rfl rfl rfl

/-! ## `step` -/

/-- The start of `step`. -/
def begin (port : Port) (s : State) : State :=
  if s.respQ.isEmpty then { s with stepped := true } else trySendResponse port { s with stepped := true }

theorem emits_begin (port : Port) (s : State) : Emits s (begin port s) [] := by
  unfold begin
  split
  · exact ⟨List.prefix_rfl, (List.append_nil _).symm⟩
  · have h := emits_trySend port { s with stepped := true }
    exact ⟨h.sent, h.out⟩

theorem begin_eq (port : Port) (s : State) : (begin port s).pending = s.pending ∧ (begin port s).events = s.events ∧
    (begin port s).now = s.now ∧ (begin port s).stepped = true ∧ (begin port s).base = s.base := by
  unfold begin
  split <;> exact ⟨rfl, rfl, rfl, rfl, rfl⟩

theorem Serial.begin (h : Serial lat s) (port : Port) : Serial lat (begin port s) := by
  obtain ⟨hp, he, hn, hs, -⟩ := begin_eq port s
  refine ⟨?_, ?_, ?_, ?_, fun b hb => ?_⟩
  · rw [hp]
    exact h.fresh
  · rw [he, hn]
    exact h.future
  · rw [he]
    exact h.due
  · rw [he]
    exact h.sorted
  · rw [he] at hb
    have := h.recent b hb
    rw [hn, hs, if_pos rfl]
    split at this <;> omega

theorem step_none (h : Serial lat s) (port : Port) (hs : s.stepped = false) :
    step lat s (.dmStep port none) = .next (begin port s) ∧ Serial lat (DataMem.begin port s) := by
  refine ⟨?_, h.begin port⟩
  unfold step
  dsimp only
  rw [hs, if_neg Bool.false_ne_true]
  rfl

/-- The state after the request `r` was popped. -/
def popped (lat : Nat) (p : Packet) (r : Req) (s : State) : State :=
  { s with
      pending := Function.update s.pending p.tid (some { (s.pending p.tid).getD {} with expected := 1 })
      popped := s.popped ++ [(s.now, p)]
      events := s.events ++ [(s.now + lat, .beat ⟨s.popped.length, 0, s.now + lat, r⟩), (s.now + 1 + 1 + lat, .send)] }

theorem acceptPacket_single {p : Packet} {r : Req} (h : Single p r) :
    acceptPacket lat p s = .ok (popped lat p r s) := by
  rcases h with ⟨hl, hp⟩ | ⟨hl, hp⟩ <;>
    simp [acceptPacket, acceptBurst, Burst.burstSize, hl, hp, beatsOf, popped, State.schedule, Packet.tid]

theorem pendingBeats_popped (p : Packet) (r : Req) (s : State) : pendingBeats (popped lat p r s).events =
    pendingBeats s.events ++ [⟨s.popped.length, 0, s.now + lat, r⟩] := by
  unfold popped
  rw [pendingBeats_append]
  rfl

/-- A packet is popped by a call of `step` that is not in the tick of another, so its beat is due after all others. -/
theorem Serial.popped {p : Packet} {r : Req} {port : Port} (h : Serial lat s) (hs : s.stepped = false) :
    Serial lat (popped lat p r (DataMem.begin port s)) := by
  have hb := h.begin port
  obtain ⟨hp, he, hn, hst, -⟩ := begin_eq port s
  refine ⟨?_, ?_, ?_, ?_, ?_⟩
  · intro tid tk htk
    dsimp only [DataMem.popped] at htk
    by_cases hid : tid = p.tid
    · subst hid
      rw [Function.update_self] at htk
      rcases hq : (DataMem.begin port s).pending p.tid with _ | tk'
      · rw [hq] at htk
        exact (Option.some.inj htk).symm
      · rw [hq, hb.fresh _ _ hq] at htk
        exact (Option.some.inj htk).symm
    · rw [Function.update_of_ne hid] at htk
      exact hb.fresh tid tk htk
  · intro e hm
    dsimp only [DataMem.popped] at hm ⊢
    rcases List.mem_append.mp hm with hm | hm
    · exact hb.future e hm
    · rcases List.mem_pair.mp hm with rfl | rfl <;> simp only <;> omega
  · intro e hm b hbeat
    dsimp only [DataMem.popped] at hm
    rcases List.mem_append.mp hm with hm | hm
    · exact hb.due e hm b hbeat
    · rcases List.mem_pair.mp hm with rfl | rfl
      · cases hbeat
        rfl
      · cases hbeat
  · rw [pendingBeats_popped, List.pairwise_append]
    refine ⟨hb.sorted, List.pairwise_singleton _ _, fun b hm c hc => ?_⟩
    rw [List.mem_singleton.mp hc, hn]
    rw [he] at hm
    have := h.recent b hm
    rw [hs] at this
    simpa using this
  · intro b hm
    rw [pendingBeats_popped] at hm
    show b.due < (DataMem.begin port s).now + lat + if (DataMem.begin port s).stepped then 1 else 0
    rw [hst, if_pos rfl]
    rcases List.mem_append.mp hm with hm | hm
    · have := hb.recent b hm
      rwa [hst, if_pos rfl] at this
    · rw [List.mem_singleton.mp hm]
      exact Nat.lt_succ_self _

theorem pop_single {p : Packet} {r : Req} (h : Single p r) (port : Port) (hs : s.stepped = false) :
    step lat s (.dmStep port (some p)) = .next (popped lat p r (begin port s)) := by
  unfold step
  dsimp only
  rw [hs, if_neg Bool.false_ne_true]
  unfold dmStep
  exact congrArg Outcome.ofExcept (acceptPacket_single h)

/-! ## Events -/

theorem split_at {α : Type} {l : List α} {k : Nat} {e : α} (hk : l[k]? = some e) :
    l = l.take k ++ e :: l.drop (k + 1) := by
  obtain ⟨hlt, hget⟩ := List.getElem?_eq_some_iff.mp hk
  rw [← hget, List.getElem_cons_drop, List.take_append_drop]

theorem step_event {k : Nat} {e : Event} (port : Port) (hk : s.events[k]? = some (s.now, e)) :
    step lat s (.event k port) = .ofExcept (process port e { s with events := s.events.eraseIdx k }) := by
  simp only [step, hk, ne_eq, not_true, if_false]

/-- The beat that is due is the first of those that wait. -/
theorem Serial.head (h : Serial lat s) {k : Nat} {b : Beat} (hk : s.events[k]? = some (s.now, .beat b)) :
    pendingBeats s.events = b :: pendingBeats (s.events.eraseIdx k) := by
  have hbeats : pendingBeats s.events = pendingBeats (s.events.take k) ++ b :: pendingBeats (s.events.drop (k + 1)) := by
    conv_lhs => rw [split_at hk, pendingBeats_append]
    rfl
  have hnil : pendingBeats (s.events.take k) = [] := by
    rw [List.eq_nil_iff_forall_not_mem]
    intro c hc
    have hsorted := h.sorted
    rw [hbeats, List.pairwise_append] at hsorted
    have hcb := hsorted.2.2 c hc b List.mem_cons_self
    obtain ⟨e, he, hec⟩ := List.mem_filterMap.mp hc
    have hmem := List.mem_of_mem_take he
    have hbeat : e.2 = .beat c := by
      rcases hx : e.2 with c' | _ <;> rw [hx] at hec
      · exact congrArg Event.beat (Option.some.inj hec)
      · cases hec
    have h1 := h.future e hmem
    have h2 := h.due e hmem c hbeat
    have h3 := h.due _ (List.mem_of_getElem? hk) b rfl
    dsimp only at h3
    omega
  rw [hbeats, hnil, List.eraseIdx_eq_take_drop_succ, pendingBeats_append, hnil]
  rfl

theorem pendingBeats_eraseIdx_send' {l : List (Nat × Event)} {k d : Nat} (hk : l[k]? = some (d, .send)) :
    pendingBeats (l.eraseIdx k) = pendingBeats l := by
  rw [List.eraseIdx_eq_take_drop_succ, pendingBeats_append]
  conv_rhs => rw [split_at hk, pendingBeats_append]
  rfl

/-- An event leaves the queue. -/
theorem Serial.erase (h : Serial lat s) (k : Nat)
    (hb : (pendingBeats (s.events.eraseIdx k)).Sublist (pendingBeats s.events)) :
    Serial lat { s with events := s.events.eraseIdx k } where
  fresh := h.fresh
  future e he := h.future e (List.mem_of_mem_eraseIdx he)
  due e he := h.due e (List.mem_of_mem_eraseIdx he)
  sorted := h.sorted.sublist hb
  recent b hm := h.recent b (hb.subset hm)

theorem event_send (h : Serial lat s) {k : Nat} (port : Port) (hk : s.events[k]? = some (s.now, .send)) :
    ∃ t, step lat s (.event k port) = .next t ∧ Serial lat t ∧ t.base = s.base ∧ t.beats = s.beats ∧ Emits s t [] ∧
      t.events = s.events.eraseIdx k ∧ t.now = s.now := by
  refine ⟨trySendResponse port { s with events := s.events.eraseIdx k }, ?_, ?_, rfl, ?_, ?_, rfl, rfl⟩
  · rw [step_event port hk]
    rfl
  · refine Serial.trySend (h.erase k ?_) port
    rw [pendingBeats_eraseIdx_send' hk]
  · exact congrArg (List.map (·.req)) (pendingBeats_eraseIdx_send' hk)
  · have he := emits_trySend port { s with events := s.events.eraseIdx k }
    exact ⟨he.sent, he.out⟩

/-- No beat of a burst waits in a tracker for the others. -/
theorem Serial.tracker (h : Serial lat s) (tid : Nat) : max ((s.pending tid).getD {}).expected 1 = 1 ∧
    ((s.pending tid).getD {}).rbeats = [] ∧ ((s.pending tid).getD {}).wbeats = [] := by
  rcases hp : s.pending tid with _ | tk
  · exact ⟨rfl, rfl, rfl⟩
  · rw [h.fresh tid tk hp]
    exact ⟨rfl, rfl, rfl⟩

/-- What a beat's event comes to. -/
def served (b : Beat) (m : BaseMemory) (x : Served) (s : State) : State :=
  { s with
      base := m
      pending := Function.update s.pending b.req.tid none
      respQ := s.respQ ++ [answerTo b.req x.data]
      served := s.served ++ [x] }

theorem process_single (h : Serial lat s) (port : Port) {b : Beat} {m : BaseMemory} {x : Served}
    (hx : serveBeat b s.base = .ok (m, x)) : process port (.beat b) s = .ok (served b m x s) := by
  unfold process
  rcases hb : b.req with p | p
  · obtain ⟨v, hv, rfl, rfl⟩ := (serveBeat_read hb).mp hx
    obtain ⟨he, hr, -⟩ := h.tracker p.tid
    have hm : memReadReqHandler p s = .ok ({ s with
        pending := Function.update s.pending p.tid none
        respQ := s.respQ ++ [answerTo (.read p) (some v)] }, v) := by
      simp [memReadReqHandler, hv, bind, Except.bind, pure, Except.pure, State.collect, he, hr, answerTo, readAnswer]
    simp only [hb, hm, served, Req.tid]
    rfl
  · obtain ⟨hw, rfl⟩ := (serveBeat_write hb).mp hx
    obtain ⟨he, -, hr⟩ := h.tracker p.tid
    have hm : memWriteReqHandler p s = .ok { s with
        base := m
        pending := Function.update s.pending p.tid none
        respQ := s.respQ ++ [answerTo (.write p) none] } := by
      simp [memWriteReqHandler, hw, bind, Except.bind, pure, Except.pure, State.collect, he, hr, answerTo, writeAnswer]
    simp only [hb, hm, served, Req.tid]
    rfl

theorem event_beat (h : Serial lat s) {k : Nat} (port : Port) {b : Beat} {m : BaseMemory} {x : Served}
    (hk : s.events[k]? = some (s.now, .beat b)) (hx : serveBeat b s.base = .ok (m, x)) :
    ∃ t, step lat s (.event k port) = .next t ∧ Serial lat t ∧ t.base = m ∧ s.beats = b.req :: t.beats ∧
      Emits s t [answerTo b.req x.data] ∧ t.events = s.events.eraseIdx k ∧ t.now = s.now := by
  have hhead := h.head hk
  have herase := h.erase k (by rw [hhead]; exact List.sublist_cons_self _ _)
  refine ⟨served b m x { s with events := s.events.eraseIdx k }, ?_, ?_, rfl, ?_, ?_, rfl, rfl⟩
  · rw [step_event port hk]
    exact congrArg Outcome.ofExcept (process_single herase port hx)
  · refine ⟨fun tid tk htk => ?_, herase.future, herase.due, herase.sorted, herase.recent⟩
    dsimp only [served] at htk
    by_cases hid : tid = b.req.tid
    · subst hid
      rw [Function.update_self] at htk
      cases htk
    · rw [Function.update_of_ne hid] at htk
      exact h.fresh tid tk htk
  · unfold State.beats
    rw [hhead]
    rfl
  · exact ⟨List.prefix_rfl, by simp [served]⟩

/-! ## The clock -/

theorem step_tick (h : Serial lat s) (hn : ∀ e ∈ s.events, s.now < e.1) :
    step lat s .tick = .next { s with now := s.now + 1, stepped := false } ∧
      Serial lat { s with now := s.now + 1, stepped := false } := by
  refine ⟨?_, h.fresh, hn, h.due, h.sorted, fun b hb => ?_⟩
  · unfold step
    dsimp only
    rw [if_neg]
    simp only [List.any_eq_true, decide_eq_true_eq, not_exists, not_and, Nat.not_le]
    exact hn
  · have := h.recent b hb
    simp only [Bool.false_eq_true, if_false]
    split at this <;> omega

end

end SocModel.DataMem
