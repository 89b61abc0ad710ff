import SocModel.DataMem.Bursts
import SocModel.Sa.AddressMap

/-!
# The requests the systolic array answers

A request packet that `step` pops leaves a tracker behind and one event for each beat, or one event for a control
register. The handlers of the SRAM erase the tracker with the last beat; those of the registers never do.

* `Traced` : the module with a record of the requests popped and of the responses made;
* `Serves` : the events of a request run, they make one response, and the tracker is gone;
* `RequestState` : where the events, the tracker and the response of one transaction id stand; one lemma for each action;
* `serves_iff` : exactly the requests that go to the SRAM and stay in it are served.
-/

namespace SocModel.Sa

open Lib Bus
open DataMem (Req IsRequest)

/-! ## Requests and their events -/

/-- The array with a record of the requests popped and of the packets that joined `resp_Q_`. -/
structure Traced where
  sa : State
  requests : List Packet
  made : List Packet

/-- The request an action pops. -/
def Act.request : Act → List Packet
  | .accept (.readReq p) => [.readReq p]
  | .accept (.writeReq p) => [.writeReq p]
  | _ => []

namespace Traced

def start : Traced := ⟨init, [], []⟩

def step (s : Traced) (a : Act) : Outcome Fault Traced :=
  (Sa.step s.sa a).bind fun t => .next ⟨t, s.requests ++ a.request, s.made ++ t.respQ.drop s.sa.respQ.length⟩

end Traced

/-- The transaction id of the request an event serves. -/
def Event.tid? : Event → Option Nat
  | .sramRead p => some p.tid
  | .sramWrite p => some p.tid
  | .readMmio p => some p.tid
  | .writeMmio p => some p.tid
  | .poll => none

/-- The ids of the beats of a response. -/
def respTids : Packet → List Nat
  | .readResp p => p.payloads.map (·.tid)
  | .writeResp p => p.payloads.map (·.tid)
  | _ => []

/-- The events with id `d` that are scheduled. -/
def Traced.events (s : Traced) (d : Nat) : List Event := s.sa.events.filter (·.tid? = some d)

/-- The responses that mention the id `d`, each as the ids of its beats. -/
def Traced.answers (s : Traced) (d : Nat) : List (List Nat) := (s.made.filter (d ∈ respTids ·)).map respTids

/-- The request `p` is served: none of its events faults, and once all have run it has been answered by one packet
with one beat for each of its own, and its tracker is erased. -/
structure Serves (s : Traced) (p : Packet) : Prop where
  runs : ∀ k e, s.sa.events[k]? = some e → e.tid? = some p.tid → ∀ recycled fault,
    Sa.step s.sa (.event k recycled) ≠ .fault fault
  answered : s.events p.tid = [] → s.answers p.tid = [List.replicate (DataMem.Packet.reqs p).length p.tid]
  freed : s.events p.tid = [] → s.sa.pending p.tid = {}

namespace Req

def addr : Req → Word
  | .read p => p.addr
  | .write p => p.addr

/-- The bytes the operation accesses. -/
def width : Req → Nat
  | .read p => p.op.readWidth
  | .write p => p.op.writeWidth

/-- The bytes of the beat lie in the SRAM. -/
def InRange (q : Req) : Prop :=
  SA_MEMORY_BASE ≤ (addr q).toNat ∧ (addr q).toNat + width q ≤ SA_MEMORY_BASE + memSize

def sramEvent : Req → Event
  | .read p => .sramRead p
  | .write p => .sramWrite p

def mmioEvent : Req → Event
  | .read p => .readMmio p
  | .write p => .writeMmio p

@[simp] theorem sramEvent_tid (q : Req) : (sramEvent q).tid? = some q.tid := by
  rcases q with p | p <;> rfl

@[simp] theorem mmioEvent_tid (q : Req) : (mmioEvent q).tid? = some q.tid := by
  rcases q with p | p <;> rfl

end Req

/-- `step` sends the request to the SRAM. -/
def goesToSram (p : Packet) : Bool :=
  match DataMem.Packet.reqs p with
  | [] => false
  | q :: _ => toSram (Req.addr q)

/-- The request goes to the SRAM and all of its beats lie in it. -/
def Serviceable (p : Packet) : Prop := goesToSram p = true ∧ ∀ q ∈ DataMem.Packet.reqs p, Req.InRange q

/-- Requests of loads and stores, under ids of their own. -/
structure Distinct (requests : List Packet) : Prop where
  request : ∀ p ∈ requests, ∃ c, IsRequest c p
  width : ∀ p ∈ requests, ∀ q ∈ DataMem.Packet.reqs p, 0 < Req.width q
  nodup : (requests.map Packet.tid).Nodup

/-! ## What the actions do -/

/-- The events scheduled for a request. -/
def requestEvents (p : Packet) : List Event :=
  if goesToSram p then (DataMem.Packet.reqs p).map Req.sramEvent else (DataMem.Packet.reqs p).map Req.mmioEvent

/-- A popped request opens a tracker and schedules its events; a burst goes to the SRAM. -/
theorem accept_request {c : Caller} {p : Packet} {s t : State} (hp : IsRequest c p) (h : accept s p = .ok t) :
    t = (s.expect p.tid (DataMem.Packet.reqs p).length).schedule (requestEvents p) ∧
      (goesToSram p = false → (DataMem.Packet.reqs p).length = 1) := by
  rcases p with p | p | p | p
  · rcases hq : p.payloads with _ | ⟨q, qs⟩
    · exact absurd (by simp [DataMem.Packet.reqs, hq]) hp.nonempty
    · have hs : goesToSram (.readReq p) = toSram q.addr := by
        simp [goesToSram, DataMem.Packet.reqs, hq, Req.addr]
      simp only [accept, acceptRead, hq] at h
      split at h
      · cases h
      split at h
      · next hsram =>
        cases h
        rw [hs, requestEvents, if_pos (hs.trans hsram)]
        refine ⟨?_, fun h => absurd (hsram.symm.trans h) (by decide)⟩
        simp [DataMem.Packet.reqs, hq, Packet.tid, Req.sramEvent, Function.comp_def]
      · next hsram =>
        split at h
        · next hlen =>
          cases h
          have hqs : qs = [] := by simpa using hlen
          rw [hs, requestEvents, hs, if_neg hsram]
          simp [DataMem.Packet.reqs, hq, hqs, Packet.tid, Req.mmioEvent]
        · cases h
  · rcases hq : p.payloads with _ | ⟨q, qs⟩
    · exact absurd (by simp [DataMem.Packet.reqs, hq]) hp.nonempty
    · have hs : goesToSram (.writeReq p) = toSram q.addr := by
        simp [goesToSram, DataMem.Packet.reqs, hq, Req.addr]
      simp only [accept, acceptWrite, hq] at h
      split at h
      · cases h
      split at h
      · next hsram =>
        cases h
        rw [hs, requestEvents, if_pos (hs.trans hsram)]
        refine ⟨?_, fun h => absurd (hsram.symm.trans h) (by decide)⟩
        simp [DataMem.Packet.reqs, hq, Packet.tid, Req.sramEvent, Function.comp_def]
      · next hsram =>
        split at h
        · next hlen =>
          cases h
          have hqs : qs = [] := by simpa using hlen
          rw [hs, requestEvents, hs, if_neg hsram]
          simp [DataMem.Packet.reqs, hq, hqs, Packet.tid, Req.mmioEvent]
        · cases h
  · exact absurd rfl hp.nonempty
  · exact absurd rfl hp.nonempty

/-- The ids a tracker has collected from the beats of reads, or from those of writes. -/
def BurstTracker.tids (tk : BurstTracker) : Req → List Nat
  | .read _ => tk.rbeats.map (·.tid)
  | .write _ => tk.wbeats.map (·.tid)

/-- What the event of a beat in the SRAM does: the response joins its tracker, and leaves it with the others when
it is the last one. -/
structure Collected (q : Req) (s t : State) : Prop where
  events : t.events = s.events
  other : ∀ d, d ≠ q.tid → t.pending d = s.pending d
  last : (s.pending q.tid).tids q ++ [q.tid] = List.replicate (s.pending q.tid).expected q.tid →
    t.pending q.tid = {} ∧ ∃ resp, t.respQ = s.respQ ++ [resp] ∧
      respTids resp = List.replicate (s.pending q.tid).expected q.tid
  short : ((s.pending q.tid).tids q ++ [q.tid]).length ≠ (s.pending q.tid).expected →
    (t.pending q.tid).expected = (s.pending q.tid).expected ∧
      (t.pending q.tid).tids q = (s.pending q.tid).tids q ++ [q.tid] ∧ t.respQ = s.respQ

theorem collect_eq {s : State} {tid n : Nat} {tk : BurstTracker} {resp : Packet} (h : n = tk.expected) :
    s.collect tid tk n resp = { s with pending := Function.update s.pending tid {} }.respond resp :=
  if_pos h

theorem collect_ne {s : State} {tid n : Nat} {tk : BurstTracker} {resp : Packet} (h : n ≠ tk.expected) :
    s.collect tid tk n resp = { s with pending := Function.update s.pending tid tk } :=
  if_neg h

theorem collected {q : Req} {s : State} {tk : BurstTracker} {n : Nat} {resp : Packet} (sram : Store)
    (hexp : tk.expected = (s.pending q.tid).expected) (htids : tk.tids q = (s.pending q.tid).tids q ++ [q.tid])
    (hn : n = (tk.tids q).length) (hresp : respTids resp = tk.tids q) :
    Collected q s ({ s with sram }.collect q.tid tk n resp) := by
  by_cases hfull : n = tk.expected
  · rw [collect_eq hfull]
    refine ⟨rfl, fun d hd => Function.update_of_ne hd _ _, fun hlast => ⟨Function.update_self _ _ _, resp, rfl, ?_⟩,
      fun hshort => ?_⟩
    · rw [hresp, htids, hlast]
    · rw [← htids, ← hn, ← hexp] at hshort
      exact absurd hfull hshort
  · rw [collect_ne hfull]
    refine ⟨rfl, fun d hd => Function.update_of_ne hd _ _, fun hlast => ?_, fun _ => ?_⟩
    · rw [← htids] at hlast
      rw [hn, hlast, List.length_replicate, hexp] at hfull
      exact absurd rfl hfull
    · have hself : (Function.update s.pending q.tid tk) q.tid = tk := Function.update_self _ _ _
      exact ⟨(congrArg _ hself).trans hexp, (congrArg (·.tids q) hself).trans htids, rfl⟩

theorem runEvent_sram {recycled : Nat} {q : Req} {s t : State} (h : runEvent recycled s (Req.sramEvent q) = .ok t) :
    Collected q s t := by
  rcases q with p | p
  · simp only [Req.sramEvent, runEvent, sramReadReqHandler] at h
    cases hr : sramRead s.sram p.op p.addr with
    | error e =>
      rw [hr] at h
      cases h
    | ok v =>
      rw [hr] at h
      cases h
      exact collected (q := .read p) s.sram rfl (by simp [BurstTracker.tids, Req.tid])
        (by simp [BurstTracker.tids]) rfl
  · simp only [Req.sramEvent, runEvent, sramWriteReqHandler] at h
    cases hr : sramWrite s.sram p.op p.addr p.data with
    | error e =>
      rw [hr] at h
      cases h
    | ok sram =>
      rw [hr] at h
      cases h
      exact collected (q := .write p) sram rfl (by simp [BurstTracker.tids, Req.tid])
        (by simp [BurstTracker.tids]) rfl

/-- The event of a beat runs exactly when the beat lies in the SRAM. -/
theorem runEvent_sram_faults (recycled : Nat) {q : Req} (s : State) (hw : 0 < Req.width q) :
    (∃ e, runEvent recycled s (Req.sramEvent q) = .error e) ↔ ¬ Req.InRange q := by
  rcases q with p | p
  · simp only [Req.width] at hw
    simp only [Req.sramEvent, runEvent, sramReadReqHandler, sramRead, Req.InRange, Req.addr, Req.width]
    by_cases hr : p.addr.toNat < SA_MEMORY_BASE ∨ SA_MEMORY_BASE + memSize ≤ p.addr.toNat
    · simp only [if_pos hr]
      exact ⟨fun _ h => by omega, fun _ => ⟨_, rfl⟩⟩
    · simp only [if_neg hr, if_neg hw.ne']
      by_cases ho : p.addr.toNat - SA_MEMORY_BASE + p.op.readWidth ≤ memSize
      · simp only [if_pos ho]
        refine ⟨fun ⟨e, he⟩ => ?_, fun h => absurd ⟨by omega, by omega⟩ h⟩
        cases he
      · simp only [if_neg ho]
        exact ⟨fun _ h => by omega, fun _ => ⟨_, rfl⟩⟩
  · simp only [Req.width] at hw
    simp only [Req.sramEvent, runEvent, sramWriteReqHandler, sramWrite, Req.InRange, Req.addr, Req.width]
    by_cases hr : p.addr.toNat < SA_MEMORY_BASE ∨ SA_MEMORY_BASE + memSize ≤ p.addr.toNat
    · simp only [if_pos hr]
      exact ⟨fun _ h => by omega, fun _ => ⟨_, rfl⟩⟩
    · simp only [if_neg hr, if_neg hw.ne']
      by_cases ho : p.addr.toNat - SA_MEMORY_BASE + p.op.writeWidth ≤ memSize
      · simp only [if_pos ho]
        refine ⟨fun ⟨e, he⟩ => ?_, fun h => absurd ⟨by omega, by omega⟩ h⟩
        cases he
      · simp only [if_neg ho]
        exact ⟨fun _ h => by omega, fun _ => ⟨_, rfl⟩⟩

/-- The parts of the state that requests are about are the same. -/
structure Aside (s t : State) : Prop where
  pending : t.pending = s.pending
  respQ : t.respQ = s.respQ
  events : t.events.filter (·.tid?.isSome) = s.events.filter (·.tid?.isSome)

theorem Aside.refl (s : State) : Aside s s := ⟨rfl, rfl, rfl⟩

theorem Aside.trans {s t u : State} (h : Aside s t) (h' : Aside t u) : Aside s u :=
  ⟨h'.pending.trans h.pending, h'.respQ.trans h.respQ, h'.events.trans h.events⟩

theorem Aside.after {s s' t : State} (h : Aside s' t) (hp : s'.pending = s.pending) (hr : s'.respQ = s.respQ)
    (he : s'.events = s.events) : Aside s t :=
  Aside.trans ⟨hp, hr, congrArg _ he⟩ h

theorem aside_pokeDMAReady (s : State) : Aside s (pokeDMAReady s) := by
  refine ⟨rfl, rfl, ?_⟩
  rw [pokeDMAReady, State.schedule, List.filter_append]
  exact List.append_nil _

theorem aside_dmaWrite (addr data : Word) (s : State) : Aside s (dmaWrite addr data s) := ⟨rfl, rfl, rfl⟩

theorem aside_programDma (src dst cfg : Word) (s : State) : Aside s (programDma src dst cfg s) :=
  (aside_dmaWrite _ _ _).trans ((aside_dmaWrite _ _ _).trans
    ((aside_dmaWrite _ _ _).trans ((aside_dmaWrite _ _ _).trans (aside_pokeDMAReady _))))

theorem aside_launchNextTile {s t : State} (h : launchNextTile s = .ok t) : Aside s t := by
  rcases launchNextTile_cases h with ⟨-, rfl⟩ | ⟨task, q, aTile, bTile, -, rfl⟩
  · exact ⟨rfl, rfl, rfl⟩
  · exact ⟨rfl, rfl, rfl⟩

theorem aside_deposit {s t : State} (h : deposit s = .ok t) : Aside s t := by
  unfold deposit at h
  dsimp only at h
  split at h
  · exact (aside_launchNextTile h).after rfl rfl rfl
  · cases h

theorem aside_runTile {ghost : Nat → Valid8} {k : Nat} {rest : List TileEvent} {array : Array2} {s t : State}
    {e : TileEvent} (h : runTile ghost k rest array s e = .ok t) : Aside s t := by
  rcases e with c | c | c | _
  · cases h
    exact ⟨rfl, rfl, rfl⟩
  · cases h
    exact ⟨rfl, rfl, rfl⟩
  · cases h
    exact ⟨rfl, rfl, rfl⟩
  · exact (aside_deposit h).after rfl rfl rfl

theorem aside_initializedTransaction {s t : State} (h : initializedTransaction s = .ok t) : Aside s t := by
  unfold initializedTransaction at h
  dsimp only at h
  split at h
  · cases h
  · split at h
    · cases h
    · cases h
      exact (aside_programDma _ _ _ _).after rfl rfl rfl

theorem aside_writeRegister {s t : State} {data : Word} {r : Register} (h : writeRegister s data r = .ok t) :
    Aside s t := by
  cases r with
  | enable =>
    simp only [writeRegister] at h
    split at h
    · exact aside_initializedTransaction h
    · cases h
      exact .refl s
  | _ =>
    cases h
    exact ⟨rfl, rfl, rfl⟩

theorem aside_transferDone {s t : State} (h : transferDone s = .ok t) : Aside s t := by
  rcases transferDone_cases h with ⟨-, rfl⟩ | ⟨-, aMatrix, bMatrix, -, -, hc⟩ | ⟨-, rfl⟩
  · exact (aside_programDma _ _ _ _).after rfl rfl rfl
  · exact (aside_launchNextTile hc).after rfl rfl rfl
  · exact .refl t

theorem aside_handleReadResponse {p : Burst ReadResp} {s t : State} (h : handleReadResponse p s = .ok t) :
    Aside s t := by
  rcases handleReadResponse_cases h with hd | rfl
  · exact aside_transferDone hd
  · exact aside_pokeDMAReady s

/-- The event of a control register answers at once and keeps the tracker. -/
theorem runEvent_mmio {recycled : Nat} {q : Req} {s t : State} (h : runEvent recycled s (Req.mmioEvent q) = .ok t) :
    ∃ u resp, Aside s u ∧ t = u.respond resp ∧ respTids resp = [q.tid] := by
  rcases q with p | p
  · simp only [Req.mmioEvent, runEvent, readMmio] at h
    rcases hreg : Register.ofAddr p.addr with _ | r
    · rw [hreg] at h
      cases h
    · cases hr : readRegister s r with
      | error e =>
        simp only [hreg, hr] at h
        cases h
      | ok v =>
        simp only [hreg, hr] at h
        cases h
        exact ⟨s, _, .refl s, rfl, rfl⟩
  · simp only [Req.mmioEvent, runEvent, writeMmio] at h
    rcases hreg : Register.ofAddr p.addr with _ | r
    · rw [hreg] at h
      cases h
    · cases hr : writeRegister s p.data r with
      | error e =>
        simp only [hreg, hr] at h
        cases h
      | ok u =>
        simp only [hreg, hr] at h
        cases h
        exact ⟨u, _, aside_writeRegister hr, rfl, rfl⟩

/-! ## One transaction id -/

/-- What the state and the records have for the id `d` is the same. -/
structure SameFor (d : Nat) (s t : Traced) : Prop where
  pending : t.sa.pending d = s.sa.pending d
  events : t.events d = s.events d
  answers : t.answers d = s.answers d

theorem drop_length_of_eq {α : Type} {l l' : List α} (h : l' = l) : l'.drop l.length = [] := by
  rw [h, List.drop_length]

theorem drop_length_append {α : Type} {l l' : List α} {x : α} (h : l' = l ++ [x]) : l'.drop l.length = [x] := by
  rw [h, List.drop_left]

theorem Aside.sameFor {s t : State} (h : Aside s t) (requests requests' made : List Packet) (d : Nat) :
    SameFor d ⟨s, requests, made⟩ ⟨t, requests', made ++ t.respQ.drop s.respQ.length⟩ := by
  have hfilter : ∀ l : List Event,
      l.filter (·.tid? = some d) = (l.filter (·.tid?.isSome)).filter (·.tid? = some d) := by
    intro l
    rw [List.filter_filter]
    apply List.filter_congr
    intro e _
    rcases he : e.tid? with _ | x <;> simp
  refine ⟨congrFun h.pending d, ?_, ?_⟩
  · show t.events.filter _ = s.events.filter _
    rw [hfilter, h.events, ← hfilter]
  · rw [drop_length_of_eq h.respQ, List.append_nil]
    rfl

theorem aside_trySendPacket (req resp : Port) (s : State) (made : List Packet) (requests : List Packet) (d : Nat) :
    SameFor d ⟨s, requests, made⟩
      ⟨trySendPacket req resp s, requests, made ++ (trySendPacket req resp s).respQ.drop s.respQ.length⟩ := by
  have hlen : (drainUnchecked resp s.respQ).1.length ≤ s.respQ.length := by
    rcases s.respQ with _ | ⟨x, q⟩
    · exact le_rfl
    · show (if resp.stalled then (x :: q, []) else (q, if resp.accepts then [x] else [])).1.length ≤ _
      split <;> simp
  refine ⟨rfl, rfl, ?_⟩
  rw [show (trySendPacket req resp s).respQ.drop s.respQ.length = [] from List.drop_eq_nil_of_le hlen,
    List.append_nil]
  rfl

theorem split_eraseIdx {α : Type} {l : List α} {k : Nat} {e : α} (hk : l[k]? = some e) :
    ∃ l₁ l₂, l = l₁ ++ e :: l₂ ∧ l.eraseIdx k = l₁ ++ l₂ := by
  obtain ⟨hlt, rfl⟩ := List.getElem?_eq_some_iff.mp hk
  refine ⟨l.take k, l.drop (k + 1), ?_, List.eraseIdx_eq_take_drop_succ l k⟩
  rw [List.getElem_cons_drop, List.take_append_drop]

theorem aside_poll {s : State} {k : Nat} (hk : s.events[k]? = some .poll) :
    Aside s (poll { s with events := s.events.eraseIdx k }) := by
  obtain ⟨l₁, l₂, hl, hl'⟩ := split_eraseIdx hk
  refine ⟨rfl, rfl, ?_⟩
  show (s.events.eraseIdx k).filter _ = s.events.filter _
  rw [hl', hl, List.filter_append, List.filter_append]
  rfl

/-- The three things an action can be about: no request, a request that is popped, an event of a request. -/
theorem step_cases {s t : Traced} {a : Act} (h : s.step a = .next t) (hreq : ∀ p ∈ a.request, ∃ c, IsRequest c p) :
    (t.requests = s.requests ∧ ∀ d, SameFor d s t) ∨
    (∃ p, t.requests = s.requests ++ [p] ∧ t.made = s.made ∧
      t.sa = (s.sa.expect p.tid (DataMem.Packet.reqs p).length).schedule (requestEvents p) ∧
      (goesToSram p = false → (DataMem.Packet.reqs p).length = 1)) ∨
    ∃ k e recycled d, t.requests = s.requests ∧ s.sa.events[k]? = some e ∧ e.tid? = some d ∧
      runEvent recycled { s.sa with events := s.sa.events.eraseIdx k } e = .ok t.sa ∧
      t.made = s.made ++ t.sa.respQ.drop s.sa.respQ.length := by
  obtain ⟨u, hu, ht⟩ := Outcome.bind_eq_next.mp h
  cases ht
  rcases a with ⟨req, resp⟩ | p | ⟨k, recycled⟩ | ⟨k, ghost⟩
  · cases hu
    refine .inl ⟨List.append_nil _, fun d => ?_⟩
    rw [show s.requests ++ Act.request (.trySend req resp) = s.requests from List.append_nil _]
    exact aside_trySendPacket req resp s.sa s.made s.requests d
  · have hu := Outcome.ofExcept_eq_next.mp hu
    rcases p with p | p | p | p
    · obtain ⟨c, hc⟩ := hreq (.readReq p) (by simp [Act.request])
      obtain ⟨rfl, hone⟩ := accept_request hc hu
      refine .inr (.inl ⟨.readReq p, rfl, ?_, rfl, hone⟩)
      exact (congrArg (s.made ++ ·) (drop_length_of_eq rfl)).trans (List.append_nil _)
    · obtain ⟨c, hc⟩ := hreq (.writeReq p) (by simp [Act.request])
      obtain ⟨rfl, hone⟩ := accept_request hc hu
      refine .inr (.inl ⟨.writeReq p, rfl, ?_, rfl, hone⟩)
      exact (congrArg (s.made ++ ·) (drop_length_of_eq rfl)).trans (List.append_nil _)
    · exact .inl ⟨List.append_nil _, (aside_handleReadResponse hu).sameFor _ _ _⟩
    · cases hu
      exact .inl ⟨List.append_nil _, (Aside.refl s.sa).sameFor _ _ _⟩
  · simp only [step] at hu
    split at hu
    · cases hu
    · next e hk =>
      have hu := Outcome.ofExcept_eq_next.mp hu
      rcases hd : e.tid? with _ | d
      · obtain rfl : e = .poll := by
          rcases e <;> first | rfl | cases hd
        cases hu
        exact .inl ⟨List.append_nil _, (aside_poll hk).sameFor _ _ _⟩
      · exact .inr (.inr ⟨k, e, recycled, d, List.append_nil _, hk, hd, hu, rfl⟩)
  · simp only [step] at hu
    split at hu
    · exact .inl ⟨List.append_nil _, (aside_runTile (Outcome.ofExcept_eq_next.mp hu)).sameFor _ _ _⟩
    · cases hu

/-! ## The state of one request -/

/-- Nothing is known of the id `d`. -/
structure Idle (d : Nat) (s : Traced) : Prop where
  pending : s.sa.pending d = {}
  events : s.events d = []
  answers : s.answers d = []

/-- A request of the SRAM: the beats that are scheduled and those in the tracker are its beats; with the last one
the tracker is erased and the answer made. -/
structure InSramState (p : Packet) (s : Traced) : Prop where
  own : ∀ e ∈ s.events p.tid, ∃ q ∈ DataMem.Packet.reqs p, e = Req.sramEvent q
  beats : ∀ q ∈ DataMem.Packet.reqs p, Req.sramEvent q ∈ s.events p.tid ∨ Req.InRange q
  opened : s.events p.tid ≠ [] → s.answers p.tid = [] ∧
    (s.sa.pending p.tid).expected = (DataMem.Packet.reqs p).length ∧
    ∃ k, k + (s.events p.tid).length = (DataMem.Packet.reqs p).length ∧
      ∀ q ∈ DataMem.Packet.reqs p, (s.sa.pending p.tid).tids q = List.replicate k p.tid
  closed : s.events p.tid = [] → s.sa.pending p.tid = {} ∧
    s.answers p.tid = [List.replicate (DataMem.Packet.reqs p).length p.tid]

/-- A request of a register: its event is scheduled or it has been answered, and the tracker stays. -/
structure InMmioState (p : Packet) (s : Traced) : Prop where
  single : (DataMem.Packet.reqs p).length = 1
  own : ∀ e ∈ s.events p.tid, ∃ q ∈ DataMem.Packet.reqs p, e = Req.mmioEvent q
  tracker : (s.sa.pending p.tid).expected = 1
  opened : s.events p.tid ≠ [] → (s.events p.tid).length = 1 ∧ s.answers p.tid = []
  closed : s.events p.tid = [] → s.answers p.tid = [[p.tid]]

structure RequestState (p : Packet) (s : Traced) : Prop where
  sram : goesToSram p = true → InSramState p s
  mmio : goesToSram p = false → InMmioState p s

theorem SameFor.idle {d : Nat} {s t : Traced} (h : SameFor d s t) (hs : Idle d s) : Idle d t :=
  ⟨h.pending.trans hs.pending, h.events.trans hs.events, h.answers.trans hs.answers⟩

theorem SameFor.requestState {p : Packet} {s t : Traced} (h : SameFor p.tid s t) (hs : RequestState p s) :
    RequestState p t := by
  constructor
  · intro hsram
    have hs := hs.sram hsram
    refine ⟨?_, ?_, ?_, ?_⟩
    · rw [h.events]
      exact hs.own
    · rw [h.events]
      exact hs.beats
    · rw [h.events, h.answers, h.pending]
      exact hs.opened
    · rw [h.events, h.answers, h.pending]
      exact hs.closed
  · intro hmmio
    have hs := hs.mmio hmmio
    refine ⟨hs.single, ?_, ?_, ?_, ?_⟩
    · rw [h.events]
      exact hs.own
    · rw [h.pending]
      exact hs.tracker
    · rw [h.events, h.answers]
      exact hs.opened
    · rw [h.events, h.answers]
      exact hs.closed

theorem Traced.events_schedule {s : Traced} {u : State} {es : List Event} {made requests : List Packet} {d : Nat}
    (hu : u.events = s.sa.events ++ es) :
    Traced.events ⟨u, requests, made⟩ d = s.events d ++ es.filter (·.tid? = some d) := by
  show u.events.filter _ = _
  rw [hu, List.filter_append]
  rfl

theorem requestEvents_tid {c : Caller} {p : Packet} (hp : IsRequest c p) {e : Event} (he : e ∈ requestEvents p) :
    e.tid? = some p.tid := by
  unfold requestEvents at he
  split at he
  · obtain ⟨q, hq, rfl⟩ := List.mem_map.mp he
    rw [Req.sramEvent_tid, hp.tid q hq]
  · obtain ⟨q, hq, rfl⟩ := List.mem_map.mp he
    rw [Req.mmioEvent_tid, hp.tid q hq]

/-- A request under a new id. -/
theorem requestState_pop {c : Caller} {p : Packet} {s t : Traced} (hp : IsRequest c p) (hs : Idle p.tid s)
    (hone : goesToSram p = false → (DataMem.Packet.reqs p).length = 1) (hm : t.made = s.made)
    (ht : t.sa = (s.sa.expect p.tid (DataMem.Packet.reqs p).length).schedule (requestEvents p)) :
    RequestState p t ∧ ∀ d, d ≠ p.tid → SameFor d s t := by
  rcases t with ⟨u, requests, made⟩
  dsimp only at ht hm
  have hev : ∀ d, Traced.events ⟨u, requests, made⟩ d =
      s.events d ++ (requestEvents p).filter (·.tid? = some d) := by
    intro d
    apply Traced.events_schedule
    rw [ht]
    rfl
  have hown : Traced.events ⟨u, requests, made⟩ p.tid = requestEvents p := by
    rw [hev, hs.events, List.nil_append, List.filter_eq_self]
    intro e he
    rw [requestEvents_tid hp he, decide_eq_true_eq]
  have hans : ∀ d, Traced.answers ⟨u, requests, made⟩ d = s.answers d := by
    intro d
    rw [hm]
    rfl
  have hpend : u.pending p.tid = { expected := (DataMem.Packet.reqs p).length } := by
    rw [ht]
    show Function.update s.sa.pending p.tid _ p.tid = _
    rw [Function.update_self, hs.pending]
  have hne : requestEvents p ≠ [] := by
    unfold requestEvents
    split <;> simpa using hp.nonempty
  refine ⟨⟨?_, ?_⟩, fun d hd => ⟨?_, ?_, hans d⟩⟩
  · intro hsram
    have hmap : requestEvents p = (DataMem.Packet.reqs p).map Req.sramEvent := if_pos hsram
    refine ⟨?_, ?_, fun _ => ⟨(hans _).trans hs.answers, congrArg _ hpend, 0, ?_, ?_⟩, fun h => ?_⟩
    · rw [hown, hmap]
      intro e he
      obtain ⟨q, hq, rfl⟩ := List.mem_map.mp he
      exact ⟨q, hq, rfl⟩
    · intro q hq
      rw [hown, hmap]
      exact .inl (List.mem_map_of_mem hq)
    · rw [hown, hmap, List.length_map, Nat.zero_add]
    · intro q hq
      rw [hpend]
      rcases q with q | q <;> rfl
    · rw [hown] at h
      exact absurd h hne
  · intro hmmio
    have hmap : requestEvents p = (DataMem.Packet.reqs p).map Req.mmioEvent := if_neg (by simp [hmmio])
    have hlen := hone hmmio
    refine ⟨hlen, ?_, ?_, fun _ => ⟨?_, (hans _).trans hs.answers⟩, fun h => ?_⟩
    · rw [hown, hmap]
      intro e he
      obtain ⟨q, hq, rfl⟩ := List.mem_map.mp he
      exact ⟨q, hq, rfl⟩
    · rw [hpend]
      exact hlen
    · rw [hown, hmap, List.length_map, hlen]
    · rw [hown] at h
      exact absurd h hne
  · rw [ht]
    exact Function.update_of_ne hd _ _
  · rw [hev, List.filter_eq_nil_iff.mpr, List.append_nil]
    intro e he
    rw [requestEvents_tid hp he, decide_eq_true_eq, Option.some_inj]
    exact hd.symm

theorem events_erased {s t : Traced} {k d : Nat} {e : Event} (hk : s.sa.events[k]? = some e) (hd : e.tid? = some d)
    (ht : ∀ d', t.events d' = (s.sa.events.eraseIdx k).filter (·.tid? = some d')) :
    (∃ l₁ l₂, s.events d = l₁ ++ e :: l₂ ∧ t.events d = l₁ ++ l₂) ∧ ∀ d', d' ≠ d → t.events d' = s.events d' := by
  obtain ⟨l₁, l₂, hl, hl'⟩ := split_eraseIdx hk
  constructor
  · refine ⟨l₁.filter (·.tid? = some d), l₂.filter (·.tid? = some d), ?_, ?_⟩
    · rw [Traced.events, hl, List.filter_append, List.filter_cons_of_pos (by simpa using hd)]
    · rw [ht, hl', List.filter_append]
  · intro d' hne
    have hne' : e.tid? ≠ some d' := by
      rw [hd, Ne, Option.some_inj]
      exact hne.symm
    rw [ht, hl', Traced.events, hl, List.filter_append, List.filter_append,
      List.filter_cons_of_neg (by simpa using hne')]

/-- A response to the request with id `d` is an answer for `d` only. -/
theorem answers_append {s t : Traced} {d n : Nat} {resp : Packet} (hm : t.made = s.made ++ [resp])
    (hresp : respTids resp = List.replicate n d) (hn : 0 < n) :
    t.answers d = s.answers d ++ [List.replicate n d] ∧ ∀ d', d' ≠ d → t.answers d' = s.answers d' := by
  constructor
  · have hmem : d ∈ respTids resp := by
      rw [hresp, List.mem_replicate]
      exact ⟨hn.ne', rfl⟩
    rw [Traced.answers, hm, List.filter_append, List.map_append, List.filter_cons_of_pos (by simpa using hmem),
      List.filter_nil, List.map_singleton, hresp]
    rfl
  · intro d' hne
    have hmem : d' ∉ respTids resp := by
      rw [hresp, List.mem_replicate]
      exact fun h => hne h.2
    rw [Traced.answers, hm, List.filter_append, List.filter_cons_of_neg (by simpa using hmem), List.filter_nil,
      List.append_nil]
    rfl

theorem answers_same {s t : Traced} (hm : t.made = s.made) (d : Nat) : t.answers d = s.answers d := by
  rw [Traced.answers, hm]
  rfl

/-- The beats of a packet are of one kind. -/
theorem tids_kind {p : Packet} {q q' : Req} (hq : q ∈ DataMem.Packet.reqs p) (hq' : q' ∈ DataMem.Packet.reqs p)
    (tk : BurstTracker) : tk.tids q' = tk.tids q := by
  rcases p with p | p | p | p
  · obtain ⟨x, -, rfl⟩ := List.mem_map.mp hq
    obtain ⟨y, -, rfl⟩ := List.mem_map.mp hq'
    rfl
  · obtain ⟨x, -, rfl⟩ := List.mem_map.mp hq
    obtain ⟨y, -, rfl⟩ := List.mem_map.mp hq'
    rfl
  · cases hq
  · cases hq

/-- An event of a request to the SRAM runs. -/
theorem InSramState.event {c : Caller} {p : Packet} {s t : Traced} {k recycled : Nat} {e : Event}
    (hs : InSramState p s) (hp : IsRequest c p) (hw : ∀ q ∈ DataMem.Packet.reqs p, 0 < Req.width q)
    (hk : s.sa.events[k]? = some e) (hd : e.tid? = some p.tid)
    (hrun : runEvent recycled { s.sa with events := s.sa.events.eraseIdx k } e = .ok t.sa)
    (hm : t.made = s.made ++ t.sa.respQ.drop s.sa.respQ.length) :
    InSramState p t ∧ ∀ d, d ≠ p.tid → SameFor d s t := by
  have hmem : e ∈ s.events p.tid :=
    List.mem_filter.mpr ⟨List.mem_of_getElem? hk, by simpa using hd⟩
  obtain ⟨q, hq, rfl⟩ := hs.own e hmem
  have hqd : q.tid = p.tid := hp.tid q hq
  have hc := runEvent_sram hrun
  have hrange : Req.InRange q := by
    by_contra hout
    obtain ⟨err, herr⟩ := (runEvent_sram_faults recycled _ (hw q hq)).mpr hout
    rw [hrun] at herr
    cases herr
  obtain ⟨hans, hexp, j, hj, htids⟩ := hs.opened (List.ne_nil_of_mem hmem)
  obtain ⟨⟨l₁, l₂, hl, hl'⟩, hother⟩ := events_erased (t := t) hk hd (fun d => by rw [Traced.events, hc.events])
  have htq := htids q hq
  have hown : ∀ e ∈ t.events p.tid, ∃ q ∈ DataMem.Packet.reqs p, e = Req.sramEvent q := by
    intro e he
    rw [hl'] at he
    refine hs.own e ?_
    rw [hl]
    rcases List.mem_append.mp he with he | he
    · exact List.mem_append_left _ he
    · exact List.mem_append_right _ (List.mem_cons_of_mem _ he)
  have hbeats : ∀ q ∈ DataMem.Packet.reqs p, Req.sramEvent q ∈ t.events p.tid ∨ Req.InRange q := by
    intro q' hq'
    rcases hs.beats q' hq' with h | h
    · rw [hl] at h
      rcases List.mem_append.mp h with h | h
      · exact .inl (hl' ▸ List.mem_append_left _ h)
      · rcases List.mem_cons.mp h with h | h
        · refine .inr ?_
          rcases q' with q' | q' <;> rcases q with q | q <;> cases h <;> exact hrange
        · exact .inl (hl' ▸ List.mem_append_right _ h)
    · exact .inr h
  rw [hl, List.length_append, List.length_cons] at hj
  by_cases hlast : t.events p.tid = []
  · obtain ⟨rfl, rfl⟩ := List.append_eq_nil_iff.mp (hl'.symm.trans hlast)
    have hjn : j + 1 = (DataMem.Packet.reqs p).length := by simpa using hj
    obtain ⟨hpend, resp, hresp, hrt⟩ := hc.last (by
      show (s.sa.pending q.tid).tids q ++ [q.tid] = List.replicate (s.sa.pending q.tid).expected q.tid
      rw [hqd, htq, hexp, ← hjn, List.replicate_succ'])
    have hrt' : respTids resp = List.replicate (DataMem.Packet.reqs p).length p.tid := by
      rw [hrt, hqd]
      exact congrArg (List.replicate · p.tid) hexp
    rw [drop_length_append hresp] at hm
    obtain ⟨h1, h2⟩ := answers_append hm hrt' (by omega)
    rw [hans] at h1
    refine ⟨⟨hown, hbeats, fun h => absurd hlast h, fun _ => ⟨hqd ▸ hpend, h1⟩⟩, fun d hne => ⟨?_, hother d hne, h2 d hne⟩⟩
    exact hc.other d (hqd ▸ hne)
  · have hlen : 0 < (l₁ ++ l₂).length := List.length_pos_iff.mpr (hl' ▸ hlast)
    rw [List.length_append] at hlen
    obtain ⟨hexp', htids', hresp⟩ := hc.short (by
      show ((s.sa.pending q.tid).tids q ++ [q.tid]).length ≠ (s.sa.pending q.tid).expected
      rw [hqd, htq, hexp, List.length_append, List.length_replicate, List.length_singleton]
      omega)
    rw [drop_length_of_eq hresp, List.append_nil] at hm
    refine ⟨⟨hown, hbeats, fun _ => ⟨(answers_same hm _).trans hans, ?_, j + 1, ?_, ?_⟩, fun h => absurd h hlast⟩,
      fun d hne => ⟨hc.other d (hqd ▸ hne), hother d hne, answers_same hm d⟩⟩
    · rw [← hqd, hexp', hqd]
      exact hexp
    · rw [hl', List.length_append]
      omega
    · intro q' hq'
      rw [tids_kind hq hq', ← hqd, htids', List.replicate_succ']
      show (s.sa.pending q.tid).tids q ++ [q.tid] = _
      rw [hqd, htq]

/-- The event of a request of a register runs. -/
theorem InMmioState.event {c : Caller} {p : Packet} {s t : Traced} {k recycled : Nat} {e : Event}
    (hs : InMmioState p s) (hp : IsRequest c p) (hk : s.sa.events[k]? = some e) (hd : e.tid? = some p.tid)
    (hrun : runEvent recycled { s.sa with events := s.sa.events.eraseIdx k } e = .ok t.sa)
    (hm : t.made = s.made ++ t.sa.respQ.drop s.sa.respQ.length) :
    t.events p.tid = [] ∧ InMmioState p t ∧ ∀ d, d ≠ p.tid → SameFor d s t := by
  have hmem : e ∈ s.events p.tid :=
    List.mem_filter.mpr ⟨List.mem_of_getElem? hk, by simpa using hd⟩
  obtain ⟨q, hq, rfl⟩ := hs.own e hmem
  have hqd : q.tid = p.tid := hp.tid q hq
  obtain ⟨u, resp, hu, ht, hrt⟩ := runEvent_mmio hrun
  obtain ⟨hlen, hans⟩ := hs.opened (List.ne_nil_of_mem hmem)
  have hpend : t.sa.pending = s.sa.pending := by
    rw [ht]
    exact hu.pending
  have hmade : t.made = s.made ++ [resp] := by
    rw [hm, drop_length_append (show t.sa.respQ = s.sa.respQ ++ [resp] by
      rw [ht]
      exact congrArg (· ++ [resp]) hu.respQ)]
  have hev : ∀ d, t.events d = (s.sa.events.eraseIdx k).filter (·.tid? = some d) := by
    intro d
    have h := (hu.sameFor [] [] [] d).events
    rw [Traced.events, ht]
    exact h
  obtain ⟨⟨l₁, l₂, hl, hl'⟩, hother⟩ := events_erased hk hd hev
  rw [hqd] at hrt
  obtain ⟨h1, h2⟩ := answers_append (n := 1) hmade hrt (by omega)
  have hnil : t.events p.tid = [] := by
    rw [hl, List.length_append, List.length_cons] at hlen
    rw [hl', List.append_eq_nil_iff]
    exact ⟨List.length_eq_zero_iff.mp (by omega), List.length_eq_zero_iff.mp (by omega)⟩
  rw [hans] at h1
  refine ⟨hnil, ⟨hs.single, ?_, hpend ▸ hs.tracker, fun h => absurd hnil h, fun _ => h1⟩,
    fun d hne => ⟨congrFun hpend d, hother d hne, h2 d hne⟩⟩
  rw [hnil]
  intro e he
  cases he

/-! ## Whole runs -/

/-- Every request is in its state, and the other ids are idle. -/
structure Kept (s : Traced) : Prop where
  request : ∀ p ∈ s.requests, RequestState p s
  idle : ∀ d, d ∉ s.requests.map Packet.tid → Idle d s

theorem kept_start : Kept Traced.start where
  request := by simp [Traced.start]
  idle := fun d _ => ⟨rfl, rfl, rfl⟩

theorem tid_inj {requests : List Packet} (h : (requests.map Packet.tid).Nodup) {p p' : Packet} (hp : p ∈ requests)
    (hp' : p' ∈ requests) (ht : p.tid = p'.tid) : p = p' :=
  List.inj_on_of_nodup_map h hp hp' ht

theorem Distinct.sublist {l l' : List Packet} (h : Distinct l') (hl : l.Sublist l') : Distinct l :=
  ⟨fun p hp => h.request p (hl.subset hp), fun p hp => h.width p (hl.subset hp), h.nodup.sublist (hl.map _)⟩

theorem step_requests {s t : Traced} {a : Act} (h : s.step a = .next t) : t.requests = s.requests ++ a.request := by
  obtain ⟨u, -, ht⟩ := Outcome.bind_eq_next.mp h
  cases ht
  rfl

theorem kept_step {s t : Traced} {a : Act} (h : Kept s) (hs : s.step a = .next t) (hd : Distinct t.requests) :
    Kept t := by
  have hreq : ∀ p ∈ a.request, ∃ c, IsRequest c p := by
    intro p hp
    apply hd.request p
    rw [step_requests hs]
    exact List.mem_append_right _ hp
  rcases step_cases hs hreq with ⟨hr, hsame⟩ | ⟨p, hr, hm, ht, hone⟩ | ⟨k, e, recycled, d, hr, hk, hed, hrun, hm⟩
  · refine ⟨fun p hp => ?_, fun d hnot => ?_⟩
    · rw [hr] at hp
      exact (hsame _).requestState (h.request p hp)
    · rw [hr] at hnot
      exact (hsame d).idle (h.idle d hnot)
  · rw [hr] at hd
    have hnew : p.tid ∉ s.requests.map Packet.tid := by
      have hnd := hd.nodup
      rw [List.map_append, List.map_singleton, ← List.concat_eq_append, List.nodup_concat] at hnd
      exact hnd.1
    obtain ⟨c, hc⟩ := hd.request p (by simp)
    obtain ⟨hstate, hother⟩ := requestState_pop hc (h.idle _ hnew) hone hm ht
    refine ⟨fun p' hp' => ?_, fun d hnot => ?_⟩
    · rw [hr] at hp'
      rcases List.mem_append.mp hp' with hp' | hp'
      · have hne : p'.tid ≠ p.tid := fun he => hnew (he ▸ List.mem_map_of_mem hp')
        exact (hother _ hne).requestState (h.request p' hp')
      · rw [List.mem_singleton.mp hp']
        exact hstate
    · rw [hr, List.map_append, List.mem_append, not_or] at hnot
      have hne : d ≠ p.tid := by simpa using hnot.2
      exact (hother d hne).idle (h.idle d hnot.1)
  · rw [hr] at hd
    have hmem : d ∈ s.requests.map Packet.tid := by
      by_contra hnot
      have hev := (h.idle d hnot).events
      have he : e ∈ s.events d := List.mem_filter.mpr ⟨List.mem_of_getElem? hk, by simpa using hed⟩
      rw [hev] at he
      cases he
    obtain ⟨p, hp, rfl⟩ := List.mem_map.mp hmem
    obtain ⟨c, hc⟩ := hd.request p hp
    have hboth : RequestState p t ∧ ∀ d, d ≠ p.tid → SameFor d s t := by
      rcases hg : goesToSram p with _ | _
      · obtain ⟨-, h1, h2⟩ := ((h.request p hp).mmio hg).event hc hk hed hrun hm
        exact ⟨⟨fun hg' => absurd (hg.symm.trans hg') (by decide), fun _ => h1⟩, h2⟩
      · obtain ⟨h1, h2⟩ := ((h.request p hp).sram hg).event hc (hd.width p hp) hk hed hrun hm
        exact ⟨⟨fun _ => h1, fun hg' => absurd (hg.symm.trans hg') (by decide)⟩, h2⟩
    refine ⟨fun p' hp' => ?_, fun d hnot => ?_⟩
    · rw [hr] at hp'
      by_cases hpp : p'.tid = p.tid
      · rw [tid_inj hd.nodup hp' hp hpp]
        exact hboth.1
      · exact (hboth.2 _ hpp).requestState (h.request p' hp')
    · rw [hr] at hnot
      have hne : d ≠ p.tid := by
        rintro rfl
        exact hnot hmem
      exact (hboth.2 d hne).idle (h.idle d hnot)

theorem kept_reaches {s t : Traced} {as : List Act} (hr : Reaches Traced.step s as t)
    (h : Distinct s.requests → Kept s) (hd : Distinct t.requests) : Kept t := by
  refine hr.inv' (I := fun s => Distinct s.requests → Kept s) ?_ h hd
  intro s a t h hs hd
  refine kept_step (h (hd.sublist ?_)) hs hd
  rw [step_requests hs]
  exact List.sublist_append_left _ _

theorem requests_mono {s t : Traced} {as : List Act} (hr : Reaches Traced.step s as t) {p : Packet}
    (hp : p ∈ s.requests) : p ∈ t.requests := by
  refine hr.inv' (I := fun s => p ∈ s.requests) ?_ hp
  intro s a t h hs
  rw [step_requests hs]
  exact List.mem_append_left _ h

theorem step_event {s : Traced} {k : Nat} {e : Event} (hk : s.sa.events[k]? = some e) (recycled : Nat) :
    Sa.step s.sa (.event k recycled) =
      .ofExcept (runEvent recycled { s.sa with events := s.sa.events.eraseIdx k } e) := by
  simp only [Sa.step, hk]

/-- A scheduled event of `d` has a position in the queue. -/
theorem exists_event {s : Traced} {d : Nat} {e : Event} (h : e ∈ s.events d) :
    ∃ k : Nat, s.sa.events[k]? = some e ∧ e.tid? = some d := by
  obtain ⟨hmem, hd⟩ := List.mem_filter.mp h
  obtain ⟨k, hk⟩ := List.getElem?_of_mem hmem
  exact ⟨k, hk, by simpa using hd⟩

/-- A request of a register is never served: its tracker stays. -/
theorem InMmioState.not_serves {c : Caller} {p : Packet} {t : Traced} (hs : InMmioState p t) (hp : IsRequest c p)
    (hd : Distinct t.requests) :
    ¬ ∀ bs u, Reaches Traced.step t bs u → Distinct u.requests → Serves u p := by
  intro h
  have hkeeps : ∀ u, InMmioState p u → u.events p.tid = [] → ¬ Serves u p := by
    intro u hu hnil hserves
    have hone := hu.tracker
    rw [hserves.freed hnil] at hone
    exact absurd hone (by decide)
  have hserves := h [] t (Reaches.refl t) hd
  rcases hev : t.events p.tid with _ | ⟨e, es⟩
  · exact hkeeps t hs hev hserves
  · obtain ⟨k, hk, hed⟩ := exists_event (hev ▸ List.mem_cons_self)
    have hstep := step_event hk 0
    cases hrun : runEvent 0 { t.sa with events := t.sa.events.eraseIdx k } e with
    | error err =>
      rw [hrun] at hstep
      exact hserves.runs k e hk hed 0 err hstep
    | ok sa =>
      rw [hrun] at hstep
      let u : Traced := ⟨sa, t.requests ++ [], t.made ++ sa.respQ.drop t.sa.respQ.length⟩
      have hu : t.step (.event k 0) = .next u := by
        unfold Traced.step
        rw [hstep]
        rfl
      obtain ⟨hnil, hs', -⟩ := hs.event (t := u) hp hk hed hrun rfl
      refine hkeeps u hs' hnil (h [.event k 0] u (Reaches.single hu) ?_)
      show Distinct (t.requests ++ [])
      rw [List.append_nil]
      exact hd

theorem InSramState.serves {p : Packet} {t : Traced} (hs : InSramState p t)
    (hw : ∀ q ∈ DataMem.Packet.reqs p, 0 < Req.width q) :
    Serves t p ↔ ∀ q ∈ DataMem.Packet.reqs p, Req.sramEvent q ∈ t.events p.tid → Req.InRange q := by
  constructor
  · intro hserves q hq he
    by_contra hout
    obtain ⟨k, hk, hed⟩ := exists_event he
    obtain ⟨err, herr⟩ := (runEvent_sram_faults 0 { t.sa with events := t.sa.events.eraseIdx k } (hw q hq)).mpr hout
    refine hserves.runs k _ hk hed 0 err ?_
    rw [step_event hk, herr]
    rfl
  · intro hrange
    refine ⟨fun k e hk hed recycled err hfault => ?_, fun h => (hs.closed h).2, fun h => (hs.closed h).1⟩
    have he : e ∈ t.events p.tid := List.mem_filter.mpr ⟨List.mem_of_getElem? hk, by simpa using hed⟩
    obtain ⟨q, hq, rfl⟩ := hs.own e he
    rw [step_event hk] at hfault
    refine (runEvent_sram_faults recycled { t.sa with events := t.sa.events.eraseIdx k } (hw q hq)).mp ?_ (hrange q hq he)
    cases hrun : runEvent recycled { t.sa with events := t.sa.events.eraseIdx k } (Req.sramEvent q) with
    | error e => exact ⟨e, rfl⟩
    | ok u =>
      rw [hrun] at hfault
      cases hfault

/-- **Served requests.** In every run whose requests are loads and stores under ids of their own, a request that was
popped is served, whatever follows, if and only if `step` sends it to the SRAM and all of its beats lie in it. -/
theorem serves_iff {as : List Act} {t : Traced} (hr : Reaches Traced.step .start as t) (hd : Distinct t.requests)
    {p : Packet} (hp : p ∈ t.requests) :
    (∀ bs u, Reaches Traced.step t bs u → Distinct u.requests → Serves u p) ↔ Serviceable p := by
  have hkept := kept_reaches hr (fun _ => kept_start) hd
  obtain ⟨c, hc⟩ := hd.request p hp
  constructor
  · intro h
    have hserves := h [] t (Reaches.refl t) hd
    rcases hg : goesToSram p with _ | _
    · exact absurd h (((hkept.request p hp).mmio hg).not_serves hc hd)
    · have hs := (hkept.request p hp).sram hg
      refine ⟨hg, fun q hq => ?_⟩
      rcases hs.beats q hq with he | hin
      · exact (hs.serves (hd.width p hp)).mp hserves q hq he
      · exact hin
  · rintro ⟨hg, hrange⟩ bs u hu hdu
    have hs := ((kept_reaches hu (fun _ => hkept) hdu).request p (requests_mono hu hp)).sram hg
    exact (hs.serves (hd.width p hp)).mpr fun q hq _ => hrange q hq

/-! ## A store to the SRAM and a read of STATUS -/

def storeSram : Packet := .writeReq (constructMemWritepktNonBurst {} .SW 0x20000 1 .cpu 7)

def loadStatus : Packet := .readReq (constructMemReadpktNonBurst { op := .LW } .LW 0x12004 {} .cpu 7)

/-- The state after one request and its event. -/
def afterOne (p : Packet) : Traced :=
  match run Traced.step .start [.accept p, .event 0 0] with
  | .next t => t
  | _ => .start

theorem distinct_storeSram : Distinct [storeSram] where
  request := by
    intro p hp
    rw [List.mem_singleton.mp hp]
    exact ⟨.cpu, DataMem.isRequest_writeSingle _ _ _ _ _ _⟩
  width := by
    intro p hp q hq
    rw [List.mem_singleton.mp hp] at hq
    rw [List.mem_singleton.mp hq]
    decide
  nodup := List.nodup_singleton _

theorem distinct_loadStatus : Distinct [loadStatus] where
  request := by
    intro p hp
    rw [List.mem_singleton.mp hp]
    exact ⟨.cpu, DataMem.isRequest_readSingle _ _ _ _ _ _⟩
  width := by
    intro p hp q hq
    rw [List.mem_singleton.mp hp] at hq
    rw [List.mem_singleton.mp hq]
    decide
  nodup := List.nodup_singleton _

theorem serves_iff_store :
    (∀ bs u, Reaches Traced.step (afterOne storeSram) bs u → Distinct u.requests → Serves u storeSram) ↔
      Serviceable storeSram :=
  @serves_iff [.accept storeSram, .event 0 0] (afterOne storeSram) rfl distinct_storeSram storeSram
    List.mem_cons_self

/-- A read of STATUS is answered and keeps its tracker. -/
theorem serves_iff_status : ¬ ∀ (as : List Act) (t : Traced), Reaches Traced.step .start as t → Distinct t.requests →
    (∀ p ∈ t.requests, ∀ q ∈ DataMem.Packet.reqs p, slaveIndex (Req.addr q) = getIndex .sa) →
      ∀ p ∈ t.requests, Serves t p := by
  intro h
  have hserves := h [.accept loadStatus, .event 0 0] (afterOne loadStatus) rfl distinct_loadStatus
    (by
      intro p hp q hq
      obtain rfl : p = loadStatus := List.mem_singleton.mp hp
      obtain rfl := List.mem_singleton.mp hq
      decide)
    loadStatus List.mem_cons_self
  have hfreed := congrArg BurstTracker.expected (hserves.freed rfl)
  exact absurd hfreed (by decide)

end SocModel.Sa
