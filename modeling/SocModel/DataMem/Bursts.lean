import Mathlib.Data.List.Nodup
import SocModel.DataMem.Order
import SocModel.Isa.Exec

/-!
# The data memory answers each burst once

The beats of several bursts interleave, and the tracker of a transaction id collects the responses of one burst.
`Open` bursts are those a beat of which is still scheduled.

* `IsRequest` : the packets that the constructors of `MMIOUtil.hh` build;
* `Answers` : what the response packet of a burst holds;
* `Inv.servedOf_eq` : the beats of one burst are served in order;
* `Tracked` : the trackers are those of the open bursts, the responses are those of the others;
* `reassembles` : it holds in every run.
-/

namespace SocModel.DataMem

open Lib Bus

/-! ## Request packets -/

namespace Req

def tid : Req → Nat
  | .read p => p.tid
  | .write p => p.tid

def caller : Req → Caller
  | .read p => p.caller
  | .write p => p.caller

end Req

/-- The master port a packet comes from. -/
def Packet.srcIdx : Packet → Nat
  | .readReq p => p.srcIdx
  | .writeReq p => p.srcIdx
  | .readResp p => p.srcIdx
  | .writeResp p => p.srcIdx

/-- A request of `c`: at least one beat, and every beat carries the caller and the id of the packet. -/
structure IsRequest (c : Caller) (pkt : Packet) : Prop where
  nonempty : Packet.reqs pkt ≠ []
  tid : ∀ q ∈ Packet.reqs pkt, q.tid = pkt.tid
  caller : ∀ q ∈ Packet.reqs pkt, q.caller = c
  src : Packet.srcIdx pkt = getIndex c

theorem isRequest_readSingle (i : Instr) (op : InstrType) (addr : Word) (a1 : Operand) (c : Caller) (tid : Nat) :
    IsRequest c (.readReq (constructMemReadpktNonBurst i op addr a1 c tid)) := by
  constructor <;> simp [Packet.reqs, constructMemReadpktNonBurst, Req.tid, Req.caller, Packet.tid, Packet.srcIdx]

theorem isRequest_writeSingle (i : Instr) (op : InstrType) (addr data : Word) (c : Caller) (tid : Nat) :
    IsRequest c (.writeReq (constructMemWritepktNonBurst i op addr data c tid)) := by
  constructor <;> simp [Packet.reqs, constructMemWritepktNonBurst, Req.tid, Req.caller, Packet.tid, Packet.srcIdx]

theorem isRequest_writeBurst {c : Caller} {payloads : List WriteReq} {tid : Nat} {p : Burst WriteReq}
    (h : constructMemWritepktBurst c payloads tid = .ok p) : IsRequest c (.writeReq p) := by
  rcases payloads with _ | ⟨q, qs⟩
  · cases h
  · cases h
    constructor <;> simp [Packet.reqs, Req.tid, Req.caller, Packet.tid, Packet.srcIdx]

/-! ## Responses -/

/-- The response to a read beat that returned `v`. -/
def readAnswer (p : ReadReq) (v : Word) : ReadResp :=
  { tid := p.tid, instr := p.instr, op := p.op, data := v, a1 := p.a1 }

def writeAnswer (p : WriteReq) : WriteResp := { tid := p.tid, instr := p.instr }

/-- `resp` answers the request at position `k` of the packets popped: it goes back to the requester under the id
of the request, its burst size is the number of its beats, and these are the responses to the beats of the
request, in order, with the values the log has for them. -/
inductive Answers (log : List Served) (k : Nat) : Packet → Packet → Prop
  | read {p : Burst ReadReq} {q : Burst ReadResp} (size : q.burstSize = q.payloads.length) (tid : q.tid = p.tid)
      (dst : q.dstIdx = p.srcIdx)
      (beats : List.Forall₂ (fun r a => ∃ due v, ⟨⟨k, r.2, due, .read r.1⟩, some v⟩ ∈ log ∧ a = readAnswer r.1 v)
        p.payloads.zipIdx q.payloads) : Answers log k (.readReq p) (.readResp q)
  | write {p : Burst WriteReq} {q : Burst WriteResp} (size : q.burstSize = q.payloads.length) (tid : q.tid = p.tid)
      (dst : q.dstIdx = p.srcIdx)
      (beats : List.Forall₂ (fun r a => ∃ due, ⟨⟨k, r.2, due, .write r.1⟩, none⟩ ∈ log ∧ a = writeAnswer r.1)
        p.payloads.zipIdx q.payloads) : Answers log k (.writeReq p) (.writeResp q)

theorem Answers.mono {log log' : List Served} {k : Nat} {pkt resp : Packet} (h : Answers log k pkt resp)
    (hlog : ∀ x ∈ log, x ∈ log') : Answers log' k pkt resp := by
  rcases h with ⟨size, tid, dst, beats⟩ | ⟨size, tid, dst, beats⟩
  · refine .read size tid dst (beats.imp ?_)
    rintro r a ⟨due, v, hx, rfl⟩
    exact ⟨due, v, hlog _ hx, rfl⟩
  · refine .write size tid dst (beats.imp ?_)
    rintro r a ⟨due, hx, rfl⟩
    exact ⟨due, hlog _ hx, rfl⟩

/-- A beat of the packet at position `k` is still scheduled. -/
def State.Open (s : State) (k : Nat) : Prop := ∃ b ∈ pendingBeats s.events, b.pkt = k

/-! ## The beats of one burst -/

/-- What was served of the packet at position `k`. -/
def servedOf (log : List Served) (k : Nat) : List Served := log.filter (·.beat.pkt = k)

def Served.readAnswer? (x : Served) : Option ReadResp :=
  match x.beat.req, x.data with
  | .read p, some v => some (readAnswer p v)
  | _, _ => none

def Served.writeAnswer? (x : Served) : Option WriteResp :=
  match x.beat.req with
  | .write p => some (writeAnswer p)
  | .read _ => none

/-- The tracker of a burst of `n` beats of which the log has those of packet `k`. -/
def trackerOf (log : List Served) (k n : Nat) : Tracker where
  expected := n
  rbeats := (servedOf log k).filterMap Served.readAnswer?
  wbeats := (servedOf log k).filterMap Served.writeAnswer?

theorem filterMap_forall₂ {α β : Type} {f : α → Option β} {l : List α} (h : ∀ x ∈ l, (f x).isSome) :
    List.Forall₂ (fun x a => f x = some a) l (l.filterMap f) := by
  induction l with
  | nil => exact .nil
  | cons x l ih =>
    obtain ⟨a, ha⟩ := Option.isSome_iff_exists.mp (h x List.mem_cons_self)
    rw [List.filterMap_cons_some ha]
    exact .cons ha (ih fun y hy => h y (List.mem_cons_of_mem x hy))

theorem servedOf_append (log : List Served) (x : Served) (k : Nat) :
    servedOf (log ++ [x]) k = servedOf log k ++ if x.beat.pkt = k then [x] else [] := by
  unfold servedOf
  rw [List.filter_append]
  by_cases h : x.beat.pkt = k <;> simp [h]

theorem mem_servedOf {log : List Served} {k : Nat} {x : Served} :
    x ∈ servedOf log k ↔ x ∈ log ∧ x.beat.pkt = k := by
  simp [servedOf]

theorem nodup_serialBeats (lat : Nat) (popped : List (Nat × Packet)) : (serialBeats lat popped).Nodup :=
  (pairwise_serialBeats lat popped).imp fun h he => (he ▸ h).asymm (he ▸ h)

theorem filter_serialBeats {lat : Nat} {popped : List (Nat × Packet)} {k : Nat} {r : Nat × Packet}
    (hk : popped[k]? = some r) :
    ((serialBeats lat popped).filter (·.pkt = k)).Perm (beatsOf lat r.1 k (Packet.reqs r.2)) := by
  rw [List.perm_ext_iff_of_nodup ((nodup_serialBeats lat popped).filter _)
    ((pairwise_beatsOf lat r.1 k _).imp fun h he => (he ▸ h).asymm (he ▸ h))]
  intro b
  simp only [List.mem_filter, mem_serialBeats, mem_beatsOf, decide_eq_true_eq]
  constructor
  · rintro ⟨⟨r', hr', hreq, hdue⟩, rfl⟩
    rw [hk] at hr'
    cases hr'
    exact ⟨rfl, hreq, hdue⟩
  · rintro ⟨rfl, hreq, hdue⟩
    exact ⟨⟨r, hk, hreq, hdue⟩, rfl⟩

section Served

variable {lat : Nat} {m : BaseMemory} {s : State}

/-- The beats of a packet are those served and those scheduled. -/
theorem Inv.beats (h : Inv lat m s) {k : Nat} {r : Nat × Packet} (hk : s.popped[k]? = some r) :
    ((servedOf s.served k).map (·.beat) ++ (pendingBeats s.events).filter (·.pkt = k)).Perm
      (beatsOf lat r.1 k (Packet.reqs r.2)) := by
  refine List.Perm.trans ?_ (filter_serialBeats hk)
  have := h.all.filter (·.pkt = k)
  rwa [List.filter_append, List.filter_map] at this

/-- **In order.** When no beat of a packet is scheduled any more, its beats have been served one after another. -/
theorem Inv.servedOf_eq (h : Inv lat m s) {k : Nat} {r : Nat × Packet} (hk : s.popped[k]? = some r)
    (hopen : ¬ s.Open k) :
    (servedOf s.served k).map (·.beat) = beatsOf lat r.1 k (Packet.reqs r.2) := by
  have hnil : (pendingBeats s.events).filter (·.pkt = k) = [] := by
    apply List.filter_eq_nil_iff.mpr
    intro b hb hbk
    exact hopen ⟨b, hb, of_decide_eq_true hbk⟩
  have hperm := h.beats hk
  rw [hnil, List.append_nil] at hperm
  have hsorted : ((servedOf s.served k).map (·.beat)).Pairwise (·.due ≤ ·.due) :=
    h.sorted.sublist ((List.filter_sublist).map _)
  have hsorted' : (beatsOf lat r.1 k (Packet.reqs r.2)).Pairwise (·.due ≤ ·.due) := by
    refine (pairwise_beatsOf lat r.1 k _).imp_of_mem ?_
    intro b c hb hc hbc
    obtain ⟨hb, -, hbd⟩ := mem_beatsOf.mp hb
    obtain ⟨hc, -, hcd⟩ := mem_beatsOf.mp hc
    unfold Beat.Before at hbc
    omega
  refine hperm.eq_of_pairwise ?_ hsorted hsorted'
  -- within one packet the tick determines the beat
  intro b c hb hc hbc hcb
  obtain ⟨hb, hbr, hbd⟩ := mem_beatsOf.mp (hperm.subset hb)
  obtain ⟨hc, hcr, hcd⟩ := mem_beatsOf.mp hc
  have hidx : b.idx = c.idx := by omega
  rw [hidx, hcr] at hbr
  rcases b
  rcases c
  simp_all

theorem Inv.logged (h : Inv lat m s) {x : Served} (hx : x ∈ s.served) :
    (∃ p v, x.beat.req = .read p ∧ x.data = some v) ∨ ∃ p, x.beat.req = .write p ∧ x.data = none := by
  obtain ⟨b, -, m', n', hb⟩ := execAll_mem h.ran hx
  rcases hreq : b.req with p | p
  · obtain ⟨v, -, -, rfl⟩ := (serveBeat_read hreq).mp hb
    exact .inl ⟨p, v, hreq, rfl⟩
  · obtain ⟨-, rfl⟩ := (serveBeat_write hreq).mp hb
    exact .inr ⟨p, hreq, rfl⟩

theorem Inv.served_req (h : Inv lat m s) {x : Served} (hx : x ∈ s.served) :
    ∃ r, s.popped[x.beat.pkt]? = some r ∧ (Packet.reqs r.2)[x.beat.idx]? = some x.beat.req := by
  have hmem : x.beat ∈ s.served.map (·.beat) ++ pendingBeats s.events :=
    List.mem_append_left _ (List.mem_map_of_mem hx)
  obtain ⟨r, hr, hreq, -⟩ := mem_serialBeats.mp (h.all.subset hmem)
  exact ⟨r, hr, hreq⟩

end Served

theorem isSome_readAnswer {lat : Nat} {m : BaseMemory} {s : State} (h : Inv lat m s) {k now : Nat}
    {p : Burst ReadReq} (hk : s.popped[k]? = some (now, .readReq p)) :
    ∀ x ∈ servedOf s.served k, (x.readAnswer?).isSome := by
  intro x hx
  obtain ⟨hlog, rfl⟩ := mem_servedOf.mp hx
  obtain ⟨r, hr, hreq⟩ := h.served_req hlog
  rw [hk] at hr
  cases hr
  obtain ⟨q, -, hq⟩ := List.mem_map.mp (List.mem_of_getElem? hreq)
  rcases h.logged hlog with ⟨q', v, hq', hv⟩ | ⟨q', hq', -⟩
  · simp [Served.readAnswer?, hq', hv]
  · rw [hq'] at hq
    cases hq

theorem isSome_writeAnswer {lat : Nat} {m : BaseMemory} {s : State} (h : Inv lat m s) {k now : Nat}
    {p : Burst WriteReq} (hk : s.popped[k]? = some (now, .writeReq p)) :
    ∀ x ∈ servedOf s.served k, (x.writeAnswer?).isSome := by
  intro x hx
  obtain ⟨hlog, rfl⟩ := mem_servedOf.mp hx
  obtain ⟨r, hr, hreq⟩ := h.served_req hlog
  rw [hk] at hr
  cases hr
  obtain ⟨q, -, hq⟩ := List.mem_map.mp (List.mem_of_getElem? hreq)
  simp [Served.writeAnswer?, ← hq]

/-- The responses collected for the beats of one packet. -/
theorem collected {α β : Type} (wrap : α → Req) {f : Served → Option β} {payloads : List α} {log : List Served}
    {lat now k : Nat} (hbeats : (servedOf log k).map (·.beat) = beatsOf lat now k (payloads.map wrap))
    (hf : ∀ x ∈ servedOf log k, (f x).isSome) :
    List.Forall₂ (fun r a => ∃ due data, ⟨⟨k, r.2, due, wrap r.1⟩, data⟩ ∈ log ∧
      f ⟨⟨k, r.2, due, wrap r.1⟩, data⟩ = some a) payloads.zipIdx ((servedOf log k).filterMap f) := by
  have hlog := filterMap_forall₂ hf
  rw [List.forall₂_iff_get] at hlog ⊢
  have hlen : (servedOf log k).length = payloads.length := by
    have := congrArg List.length hbeats
    simpa [beatsOf] using this
  refine ⟨by rw [List.length_zipIdx, ← hlen, hlog.1], fun i hi hi' => ?_⟩
  rw [List.length_zipIdx] at hi
  have hget : ((servedOf log k)[i]).beat = ⟨k, i, now + i + lat, wrap payloads[i]⟩ := by
    have := List.getElem_of_eq hbeats (i := i) (by simpa [hlen] using hi)
    simpa [beatsOf] using this
  have hmem : (servedOf log k)[i] ∈ log := (mem_servedOf.mp (List.getElem_mem _)).1
  have ha := hlog.2 i (by omega) hi'
  simp only [List.get_eq_getElem, List.getElem_zipIdx, Nat.zero_add] at ha ⊢
  refine ⟨now + i + lat, (servedOf log k)[i].data, ?_⟩
  rw [← hget]
  exact ⟨hmem, ha⟩

/-! ## The trackers -/

/-- The response packet that the tracker `tk` of the request `pkt` of `c` makes. -/
def responseOf (c : Caller) (tk : Tracker) : Packet → Packet
  | .readReq p => .readResp ((constructMemReadRespPkt tk.rbeats .dm c 0).setTID p.tid)
  | .writeReq p => .writeResp ((constructMemWriteRespPkt tk.wbeats .dm c 0).setTID p.tid)
  | pkt => pkt

/-- The beats in the tracker of the request `pkt`. -/
def Tracker.count (tk : Tracker) : Packet → Nat
  | .readReq _ => tk.rbeats.length
  | .writeReq _ => tk.wbeats.length
  | _ => 0

theorem Inv.count {lat : Nat} {m : BaseMemory} {s : State} (h : Inv lat m s) {k n : Nat} {c : Caller}
    {r : Nat × Packet} (hk : s.popped[k]? = some r) (hr : IsRequest c r.2) :
    (trackerOf s.served k n).count r.2 = (servedOf s.served k).length := by
  rcases r with ⟨now, p | p | p | p⟩
  · exact (filterMap_forall₂ (isSome_readAnswer h hk)).length_eq.symm
  · exact (filterMap_forall₂ (isSome_writeAnswer h hk)).length_eq.symm
  · exact absurd rfl hr.nonempty
  · exact absurd rfl hr.nonempty

theorem burstSize_of_respBurst {β : Type} {q : Burst β} {n : Nat} (h : q.burstLength = respBurst (2 ^ n)) :
    q.burstSize = 2 ^ n := by
  have hn : q.burstLength = n := by
    rw [h]
    unfold respBurst
    split
    · next h =>
      rw [Nat.pow_eq_one] at h
      omega
    · rw [Nat.clog_pow 2 n (by omega)]
  rw [Burst.burstSize, hn, if_neg (by omega), Int.toNat_natCast]

/-- The response made when no beat of the packet is scheduled any more answers it. -/
theorem Inv.answers {lat : Nat} {m : BaseMemory} {s : State} (h : Inv lat m s) {k n : Nat} {c : Caller}
    {r : Nat × Packet} (hk : s.popped[k]? = some r) (hr : IsRequest c r.2) (hopen : ¬ s.Open k)
    (hsize : (Packet.reqs r.2).length = 2 ^ n) :
    Answers s.served k r.2 (responseOf c (trackerOf s.served k (Packet.reqs r.2).length) r.2) := by
  have hbeats := h.servedOf_eq hk hopen
  rcases r with ⟨now, p | p | p | p⟩
  · have hall := collected Req.read hbeats (isSome_readAnswer h hk)
    refine .read ?_ rfl hr.src.symm (hall.imp ?_)
    · have hlen := hall.length_eq
      rw [List.length_zipIdx] at hlen
      have hlen' : p.payloads.length = 2 ^ n := by simpa [Packet.reqs] using hsize
      have hn := hlen.symm.trans hlen'
      exact (burstSize_of_respBurst (congrArg respBurst hn)).trans hn.symm
    · rintro q a ⟨due, data, hx, ha⟩
      rcases data with _ | v
      · cases ha
      · cases ha
        exact ⟨due, v, hx, rfl⟩
  · have hall := collected Req.write hbeats (isSome_writeAnswer h hk)
    refine .write ?_ rfl hr.src.symm (hall.imp ?_)
    · have hlen := hall.length_eq
      rw [List.length_zipIdx] at hlen
      have hlen' : p.payloads.length = 2 ^ n := by simpa [Packet.reqs] using hsize
      have hn := hlen.symm.trans hlen'
      exact (burstSize_of_respBurst (congrArg respBurst hn)).trans hn.symm
    · rintro q a ⟨due, data, hx, ha⟩
      rcases h.logged hx with ⟨q', v, hq', hv⟩ | ⟨q', hq', hv⟩
      · cases hq'
      · dsimp only at hv
        subst hv
        cases ha
        exact ⟨due, hx, rfl⟩
  · exact absurd rfl hr.nonempty
  · exact absurd rfl hr.nonempty

/-- The trackers are those of the open bursts and hold what was served of them; the packets that are not open
have been answered, each once. -/
structure Tracked (s : State) : Prop where
  sized : ∀ r ∈ s.popped, ∃ n, (Packet.reqs r.2).length = 2 ^ n
  tracker : ∀ k r, s.popped[k]? = some r → s.Open k →
    s.pending r.2.tid = some (trackerOf s.served k (Packet.reqs r.2).length)
  owner : ∀ d, s.pending d ≠ none → ∃ k r, s.popped[k]? = some r ∧ r.2.tid = d ∧ s.Open k
  answered : ∃ ks : List Nat, ks.Nodup ∧ (∀ k, k ∈ ks ↔ k < s.popped.length ∧ ¬ s.Open k) ∧
    List.Forall₂ (fun k resp => ∃ r, s.popped[k]? = some r ∧ Answers s.served k r.2 resp) ks (s.sent ++ s.respQ)

theorem tracked_init (m : BaseMemory) : Tracked (init m) where
  sized := by simp [init]
  tracker := by simp [init]
  owner := by simp [init]
  answered := ⟨[], .nil, by simp [init], .nil⟩

/-- A step that leaves the scheduled beats alone. -/
theorem Tracked.of_same {s t : State} (h : Tracked s) (hp : t.popped = s.popped) (hv : t.served = s.served)
    (ho : ∀ k, t.Open k ↔ s.Open k) (hd : t.pending = s.pending) (hq : t.sent ++ t.respQ = s.sent ++ s.respQ) :
    Tracked t := by
  refine ⟨?_, ?_, ?_, ?_⟩
  · rw [hp]
    exact h.sized
  · simp only [hp, hv, ho, hd]
    exact h.tracker
  · simp only [hp, ho, hd]
    exact h.owner
  · simp only [hp, hv, ho, hq]
    exact h.answered

theorem trySendResponse_queue (port : Port) (s : State) :
    (trySendResponse port s).sent ++ (trySendResponse port s).respQ = s.sent ++ s.respQ := by
  unfold trySendResponse
  dsimp only
  rw [List.append_assoc, drain_append]

theorem Tracked.trySend {s : State} (h : Tracked s) (port : Port) : Tracked (trySendResponse port s) :=
  h.of_same rfl rfl (fun _ => Iff.rfl) rfl (trySendResponse_queue port s)

/-! ## A packet is popped -/

theorem pendingBeats_send (d : Nat) : pendingBeats [(d, Event.send)] = [] := rfl

/-- What popping a request changes. -/
structure Accepted (lat : Nat) (pkt : Packet) (s t : State) : Prop where
  popped : t.popped = s.popped ++ [(s.now, pkt)]
  served : t.served = s.served
  queue : t.sent ++ t.respQ = s.sent ++ s.respQ
  beats : pendingBeats t.events =
    pendingBeats s.events ++ beatsOf lat s.now s.popped.length (Packet.reqs pkt)
  pending : t.pending = Function.update s.pending pkt.tid
    (some { (s.pending pkt.tid).getD {} with expected := (Packet.reqs pkt).length })

theorem acceptBurst_eq_ok {lat size : Nat} {pkt : Packet} {s t : State}
    (hs : acceptBurst lat pkt pkt.tid size (Packet.reqs pkt) s = .ok t) :
    (Packet.reqs pkt).length = size ∧ Accepted lat pkt s t := by
  unfold acceptBurst at hs
  split at hs
  · cases hs
  · next hlen =>
    cases hs
    refine ⟨not_not.mp hlen, rfl, rfl, rfl, ?_, rfl⟩
    simp only [State.schedule, pendingBeats_append, pendingBeats_beats, pendingBeats_send, List.append_nil]

section Accepted

variable {lat : Nat} {m : BaseMemory} {s t : State} {c : Caller} {pkt : Packet}

theorem Inv.open_lt (h : Inv lat m s) {k : Nat} (hk : s.Open k) : k < s.popped.length := by
  obtain ⟨b, hb, rfl⟩ := hk
  obtain ⟨r, hr, -⟩ := mem_serialBeats.mp (h.all.subset (List.mem_append_right _ hb))
  exact (List.getElem?_eq_some_iff.mp hr).1

theorem Inv.servedOf_length (h : Inv lat m s) : servedOf s.served s.popped.length = [] := by
  apply List.filter_eq_nil_iff.mpr
  intro x hx hk
  obtain ⟨r, hr, -⟩ := h.served_req hx
  have hlt := (List.getElem?_eq_some_iff.mp hr).1
  have hk := of_decide_eq_true hk
  omega

theorem Accepted.open_iff (ht : Accepted lat pkt s t) (hr : Packet.reqs pkt ≠ []) (k : Nat) :
    t.Open k ↔ s.Open k ∨ k = s.popped.length := by
  unfold State.Open
  rw [ht.beats]
  constructor
  · rintro ⟨b, hb, rfl⟩
    rcases List.mem_append.mp hb with hb | hb
    · exact .inl ⟨b, hb, rfl⟩
    · exact .inr (mem_beatsOf.mp hb).1
  · rintro (⟨b, hb, rfl⟩ | rfl)
    · exact ⟨b, List.mem_append_left _ hb, rfl⟩
    · obtain ⟨q, qs, hq⟩ := List.exists_cons_of_ne_nil hr
      refine ⟨⟨s.popped.length, 0, s.now + 0 + lat, q⟩, List.mem_append_right _ ?_, rfl⟩
      rw [mem_beatsOf, hq]
      exact ⟨rfl, rfl, rfl⟩

theorem Accepted.get_lt (ht : Accepted lat pkt s t) {k : Nat} (hk : k < s.popped.length) :
    t.popped[k]? = s.popped[k]? := by
  rw [ht.popped, List.getElem?_append_left hk]

theorem Accepted.get_length (ht : Accepted lat pkt s t) : t.popped[s.popped.length]? = some (s.now, pkt) := by
  rw [ht.popped, List.getElem?_concat_length]

/-- A request under a new id opens a tracker of its own. -/
theorem Tracked.accept (h : Tracked s) (hi : Inv lat m s) (hr : IsRequest c pkt)
    (hnew : ∀ r ∈ s.popped, r.2.tid ≠ pkt.tid) (hsize : ∃ n, (Packet.reqs pkt).length = 2 ^ n)
    (ht : Accepted lat pkt s t) : Tracked t := by
  have hopen := ht.open_iff hr.nonempty
  have hnone : s.pending pkt.tid = none := by
    by_contra hd
    obtain ⟨k, r, hk, htid, -⟩ := h.owner _ hd
    exact hnew r (List.mem_of_getElem? hk) htid
  refine ⟨?_, ?_, ?_, ?_⟩
  · intro r hr
    rw [ht.popped] at hr
    rcases List.mem_append.mp hr with hr | hr
    · exact h.sized r hr
    · rw [List.mem_singleton.mp hr]
      exact hsize
  · intro k r hk hk'
    rw [ht.pending, ht.served]
    rcases (hopen k).mp hk' with ho | rfl
    · rw [ht.get_lt (hi.open_lt ho)] at hk
      rw [Function.update_of_ne (hnew r (List.mem_of_getElem? hk))]
      exact h.tracker k r hk ho
    · rw [ht.get_length] at hk
      cases hk
      rw [Function.update_self, hnone, trackerOf, hi.servedOf_length]
      rfl
  · intro d hd
    by_cases hdt : d = pkt.tid
    · exact ⟨s.popped.length, (s.now, pkt), ht.get_length, hdt.symm, (hopen _).mpr (.inr rfl)⟩
    · rw [ht.pending, Function.update_of_ne hdt] at hd
      obtain ⟨k, r, hk, htid, ho⟩ := h.owner d hd
      exact ⟨k, r, (ht.get_lt (hi.open_lt ho)).trans hk, htid, (hopen k).mpr (.inl ho)⟩
  · obtain ⟨ks, hnd, hks, hall⟩ := h.answered
    rw [ht.queue, ht.served]
    refine ⟨ks, hnd, ?_, hall.imp ?_⟩
    · intro k
      rw [hks, hopen, not_or, ht.popped, List.length_append, List.length_singleton]
      constructor
      · rintro ⟨h1, h2⟩
        exact ⟨by omega, h2, by omega⟩
      · rintro ⟨h1, h2, h3⟩
        exact ⟨by omega, h2⟩
    · rintro k resp ⟨r, hk, ha⟩
      exact ⟨r, (ht.get_lt (List.getElem?_eq_some_iff.mp hk).1).trans hk, ha⟩

end Accepted

/-! ## A beat is served -/

theorem trackerOf_append_of_ne {log : List Served} {x : Served} {k : Nat} (h : x.beat.pkt ≠ k) (n : Nat) :
    trackerOf (log ++ [x]) k n = trackerOf log k n := by
  simp only [trackerOf, servedOf_append, if_neg h, List.append_nil]

/-- The tracker a read beat leaves behind. -/
def Tracker.addRead (tk : Tracker) (a : ReadResp) : Tracker :=
  { tk with expected := max tk.expected 1, rbeats := tk.rbeats ++ [a] }

def Tracker.addWrite (tk : Tracker) (a : WriteResp) : Tracker :=
  { tk with expected := max tk.expected 1, wbeats := tk.wbeats ++ [a] }

theorem trackerOf_read {log : List Served} {b : Beat} {p : ReadReq} (hb : b.req = .read p) (v : Word) {n : Nat}
    (hn : 0 < n) :
    (trackerOf log b.pkt n).addRead (readAnswer p v) = trackerOf (log ++ [⟨b, some v⟩]) b.pkt n := by
  simp only [Tracker.addRead, trackerOf, servedOf_append, if_true, List.filterMap_append, Tracker.mk.injEq]
  refine ⟨by omega, ?_, ?_⟩
  · simp [Served.readAnswer?, hb]
  · simp [Served.writeAnswer?, hb]

theorem trackerOf_write {log : List Served} {b : Beat} {p : WriteReq} (hb : b.req = .write p) {n : Nat}
    (hn : 0 < n) :
    (trackerOf log b.pkt n).addWrite (writeAnswer p) = trackerOf (log ++ [⟨b, none⟩]) b.pkt n := by
  simp only [Tracker.addWrite, trackerOf, servedOf_append, if_true, List.filterMap_append, Tracker.mk.injEq]
  refine ⟨by omega, ?_, ?_⟩
  · simp [Served.readAnswer?, hb]
  · simp [Served.writeAnswer?, hb]

/-- What serving the beat `x` of the request `pkt` of `c` changes: `tk` is the tracker with the new response. -/
structure Handled (c : Caller) (pkt : Packet) (tk : Tracker) (x : Served) (s t : State) : Prop where
  popped : t.popped = s.popped
  served : t.served = s.served ++ [x]
  sent : t.sent = s.sent
  full : tk.count pkt = tk.expected →
    t.pending = Function.update s.pending pkt.tid none ∧ t.respQ = s.respQ ++ [responseOf c tk pkt]
  short : tk.count pkt ≠ tk.expected →
    t.pending = Function.update s.pending pkt.tid (some tk) ∧ t.respQ = s.respQ

theorem collect_handled {c : Caller} {pkt : Packet} {tk : Tracker} {b : Beat} {data : Option Word} {s : State}
    {base : BaseMemory} :
    Handled c pkt tk ⟨b, data⟩ s
      (({ s with base }.collect pkt.tid tk (tk.count pkt) (responseOf c tk pkt)).logServed b data) := by
  unfold State.collect
  by_cases h : tk.count pkt = tk.expected
  · rw [if_pos h]
    exact ⟨rfl, rfl, rfl, fun _ => ⟨rfl, rfl⟩, fun h' => absurd h h'⟩
  · rw [if_neg h]
    exact ⟨rfl, rfl, rfl, fun h' => absurd h' h, fun _ => ⟨rfl, rfl⟩⟩

theorem memReadReqHandler_collect {p : ReadReq} {q : Burst ReadReq} {s t : State} {v : Word} {tk : Tracker}
    (hs : memReadReqHandler p s = .ok (t, v)) (htid : p.tid = q.tid) (htk : s.pending q.tid = some tk) :
    t = s.collect q.tid (tk.addRead (readAnswer p v)) ((tk.addRead (readAnswer p v)).count (.readReq q))
      (responseOf p.caller (tk.addRead (readAnswer p v)) (.readReq q)) := by
  unfold memReadReqHandler at hs
  cases h : s.base.memRead p.op p.addr with
  | error e =>
    rw [h] at hs
    cases hs
  | ok w =>
    rw [h, htid, htk] at hs
    cases hs
    simp only [readAnswer, htid]
    rfl

theorem memWriteReqHandler_collect {p : WriteReq} {q : Burst WriteReq} {s t : State} {tk : Tracker}
    (hs : memWriteReqHandler p s = .ok t) (htid : p.tid = q.tid) (htk : s.pending q.tid = some tk) :
    ∃ base, t = { s with base }.collect q.tid (tk.addWrite (writeAnswer p))
      ((tk.addWrite (writeAnswer p)).count (.writeReq q))
      (responseOf p.caller (tk.addWrite (writeAnswer p)) (.writeReq q)) := by
  unfold memWriteReqHandler at hs
  cases h : s.base.memWrite p.op p.addr p.data with
  | error e =>
    rw [h] at hs
    cases hs
  | ok base =>
    rw [h, htid] at hs
    simp only [htk] at hs
    cases hs
    refine ⟨base, ?_⟩
    simp only [writeAnswer, htid]
    rfl

/-- Serving a beat of a request whose tracker holds the beats served so far. -/
theorem process_handled {port : Port} {c : Caller} {r : Nat × Packet} {b : Beat} {s t : State}
    (hr : IsRequest c r.2) (hreq : (Packet.reqs r.2)[b.idx]? = some b.req)
    (htk : s.pending r.2.tid = some (trackerOf s.served b.pkt (Packet.reqs r.2).length))
    (hs : process port (.beat b) s = .ok t) :
    ∃ data, Handled c r.2 (trackerOf (s.served ++ [⟨b, data⟩]) b.pkt (Packet.reqs r.2).length) ⟨b, data⟩ s t := by
  have hmem := List.mem_of_getElem? hreq
  have hn : 0 < (Packet.reqs r.2).length := List.length_pos_of_mem hmem
  have htid := hr.tid _ hmem
  have hcaller := hr.caller _ hmem
  unfold process at hs
  rcases r with ⟨now, q | q | q | q⟩
  · obtain ⟨p, -, hb⟩ := List.mem_map.mp hmem
    rw [← hb] at htid hcaller
    simp only [← hb] at hs
    cases hh : memReadReqHandler p s with
    | error e =>
      rw [hh] at hs
      cases hs
    | ok t' =>
      rw [hh] at hs
      cases hs
      rw [memReadReqHandler_collect hh htid htk, show p.caller = c from hcaller]
      refine ⟨some t'.2, ?_⟩
      rw [← trackerOf_read hb.symm t'.2 hn]
      exact collect_handled
  · obtain ⟨p, -, hb⟩ := List.mem_map.mp hmem
    rw [← hb] at htid hcaller
    simp only [← hb] at hs
    cases hh : memWriteReqHandler p s with
    | error e =>
      rw [hh] at hs
      cases hs
    | ok t' =>
      rw [hh] at hs
      cases hs
      obtain ⟨base, ht⟩ := memWriteReqHandler_collect hh htid htk
      rw [ht, show p.caller = c from hcaller]
      refine ⟨none, ?_⟩
      rw [← trackerOf_write hb.symm hn]
      exact collect_handled
  · exact absurd rfl hr.nonempty
  · exact absurd rfl hr.nonempty

section Handled

variable {lat : Nat} {m : BaseMemory} {s t : State} {c : Caller} {r : Nat × Packet} {b : Beat} {data : Option Word}

/-- The beats of a packet that are not scheduled have been served. -/
theorem Inv.open_iff (h : Inv lat m s) {k : Nat} (hk : s.popped[k]? = some r) :
    s.Open k ↔ (servedOf s.served k).length ≠ (Packet.reqs r.2).length := by
  have hlen := (h.beats hk).length_eq
  simp only [List.length_append, List.length_map, beatsOf, List.length_zipIdx] at hlen
  constructor
  · rintro ⟨b, hb, rfl⟩ heq
    have hmem : b ∈ (pendingBeats s.events).filter (·.pkt = b.pkt) := by simp [hb]
    have := List.length_pos_of_mem hmem
    omega
  · intro hne
    obtain ⟨b, hb⟩ := List.exists_mem_of_length_pos
      (show 0 < ((pendingBeats s.events).filter (·.pkt = k)).length by omega)
    rw [List.mem_filter, decide_eq_true_eq] at hb
    exact ⟨b, hb⟩

/-- One beat of an open request is served: the request stays open, or it is answered. -/
theorem Tracked.handle (h : Tracked s) (hi : Inv lat m s) (ht : Inv lat m t) (hk : s.popped[b.pkt]? = some r)
    (hb : s.Open b.pkt) (hr : IsRequest c r.2)
    (hinj : ∀ k r', s.popped[k]? = some r' → r'.2.tid = r.2.tid → k = b.pkt)
    (hopen : ∀ k, k ≠ b.pkt → (t.Open k ↔ s.Open k))
    (hs : Handled c r.2 (trackerOf (s.served ++ [⟨b, data⟩]) b.pkt (Packet.reqs r.2).length) ⟨b, data⟩ s t) :
    Tracked t := by
  have hkt : t.popped[b.pkt]? = some r := hs.popped ▸ hk
  have hcount : (trackerOf (s.served ++ [⟨b, data⟩]) b.pkt (Packet.reqs r.2).length).count r.2 =
      (servedOf t.served b.pkt).length := by
    rw [← hs.served]
    exact ht.count hkt hr
  have hother : ∀ k, k ≠ b.pkt → ∀ n, trackerOf t.served k n = trackerOf s.served k n := by
    intro k hne n
    rw [hs.served, trackerOf_append_of_ne hne.symm]
  have hmono : ∀ {k : Nat} {resp : Packet}, (∃ r, s.popped[k]? = some r ∧ Answers s.served k r.2 resp) →
      ∃ r, t.popped[k]? = some r ∧ Answers t.served k r.2 resp := by
    rintro k resp ⟨r', hk', ha⟩
    refine ⟨r', hs.popped ▸ hk', ha.mono fun x hx => ?_⟩
    rw [hs.served]
    exact List.mem_append_left _ hx
  have hsized : ∀ r ∈ t.popped, ∃ n, (Packet.reqs r.2).length = 2 ^ n := hs.popped ▸ h.sized
  obtain ⟨ks, hnd, hks, hall⟩ := h.answered
  by_cases hfull : t.Open b.pkt
  · -- some beats are missing
    obtain ⟨hpend, hq⟩ := hs.short (by rw [hcount]; exact (ht.open_iff hkt).mp hfull)
    refine ⟨hsized, fun k r' hk' ho => ?_, fun d hd => ?_, ks, hnd, fun k => ?_, ?_⟩
    · rw [hpend]
      by_cases hkb : k = b.pkt
      · subst hkb
        rw [hkt] at hk'
        cases hk'
        rw [Function.update_self, hs.served]
      · rw [hs.popped] at hk'
        rw [Function.update_of_ne fun he => hkb (hinj k r' hk' he), hother k hkb]
        exact h.tracker k r' hk' ((hopen k hkb).mp ho)
    · rw [hs.popped]
      by_cases hdt : d = r.2.tid
      · exact ⟨b.pkt, r, hk, hdt.symm, hfull⟩
      · rw [hpend, Function.update_of_ne hdt] at hd
        obtain ⟨k, r', hk', htid, ho⟩ := h.owner d hd
        by_cases hkb : k = b.pkt
        · exact ⟨k, r', hk', htid, hkb ▸ hfull⟩
        · exact ⟨k, r', hk', htid, (hopen k hkb).mpr ho⟩
    · rw [hks, hs.popped]
      by_cases hkb : k = b.pkt
      · subst hkb
        simp [hb, hfull]
      · rw [hopen k hkb]
    · rw [hs.sent, hq]
      exact hall.imp fun k resp => hmono
  · -- the last beat: the response leaves the tracker
    obtain ⟨hpend, hq⟩ := hs.full (by rw [hcount]; exact not_not.mp fun h' => hfull ((ht.open_iff hkt).mpr h'))
    have hne : ∀ k, t.Open k → k ≠ b.pkt := fun k ho he => hfull (he ▸ ho)
    refine ⟨hsized, fun k r' hk' ho => ?_, fun d hd => ?_, ks ++ [b.pkt], ?_, fun k => ?_, ?_⟩
    · have hkb := hne k ho
      rw [hs.popped] at hk'
      rw [hpend, Function.update_of_ne fun he => hkb (hinj k r' hk' he), hother k hkb]
      exact h.tracker k r' hk' ((hopen k hkb).mp ho)
    · have hdt : d ≠ r.2.tid := by
        rintro rfl
        rw [hpend, Function.update_self] at hd
        exact hd rfl
      rw [hpend, Function.update_of_ne hdt] at hd
      obtain ⟨k, r', hk', htid, ho⟩ := h.owner d hd
      have hkb : k ≠ b.pkt := by
        rintro rfl
        rw [hk] at hk'
        cases hk'
        exact hdt htid.symm
      exact ⟨k, r', hs.popped ▸ hk', htid, (hopen k hkb).mpr ho⟩
    · rw [← List.concat_eq_append, List.nodup_concat]
      exact ⟨fun hm => ((hks b.pkt).mp hm).2 hb, hnd⟩
    · rw [List.mem_append, List.mem_singleton, hks, hs.popped]
      by_cases hkb : k = b.pkt
      · subst hkb
        simp [hfull, hi.open_lt hb]
      · rw [hopen k hkb]
        simp [hkb]
    · rw [hs.sent, hq, ← List.append_assoc]
      refine List.rel_append (hall.imp fun k resp => hmono) (.cons ⟨r, hkt, ?_⟩ .nil)
      obtain ⟨n, hn⟩ := hsized r (List.mem_of_getElem? hkt)
      rw [← hs.served]
      exact ht.answers hkt hr hfull hn

end Handled

/-! ## Whole runs -/

/-- Requests under ids of their own. -/
structure Distinct (popped : List (Nat × Packet)) : Prop where
  request : ∀ r ∈ popped, ∃ c, IsRequest c r.2
  nodup : (popped.map (·.2.tid)).Nodup

theorem Distinct.sublist {l l' : List (Nat × Packet)} (h : Distinct l') (hl : l.Sublist l') : Distinct l :=
  ⟨fun r hr => h.request r (hl.subset hr), h.nodup.sublist (hl.map _)⟩

theorem Distinct.inj {l : List (Nat × Packet)} (h : Distinct l) {k k' : Nat} {r r' : Nat × Packet}
    (hk : l[k]? = some r) (hk' : l[k']? = some r') (htid : r.2.tid = r'.2.tid) : k = k' := by
  have hlt : k < (l.map (·.2.tid)).length := by
    rw [List.length_map]
    exact (List.getElem?_eq_some_iff.mp hk).1
  apply (List.getElem?_inj hlt h.nodup).mp
  rw [List.getElem?_map, List.getElem?_map, hk, hk', Option.map_some, Option.map_some, htid]

theorem Distinct.new {l : List (Nat × Packet)} {r : Nat × Packet} (h : Distinct (l ++ [r])) :
    ∀ r' ∈ l, r'.2.tid ≠ r.2.tid := by
  intro r' hr' htid
  have hnd := h.nodup
  rw [List.map_append, List.map_singleton, ← List.concat_eq_append, List.nodup_concat] at hnd
  exact hnd.1 (List.mem_map.mpr ⟨r', hr', htid⟩)

theorem tracked_dmStep {lat : Nat} {m : BaseMemory} {s t : State} {port : Port} {pkt : Option Packet}
    (h : Distinct s.popped → Tracked s) (hi : Inv lat m s) (hs : dmStep lat port pkt s = .ok t)
    (hd : Distinct t.popped) : Tracked t := by
  have hsend : Inv lat m (if s.respQ.isEmpty then s else trySendResponse port s) := by
    split
    · exact hi
    · exact hi.of_same (trySendResponse_same port s)
  have hpop : (if s.respQ.isEmpty then s else trySendResponse port s).popped = s.popped := by
    split <;> rfl
  have hsent : Distinct s.popped → Tracked (if s.respQ.isEmpty then s else trySendResponse port s) := by
    intro hd
    split
    · exact h hd
    · exact (h hd).trySend port
  unfold dmStep at hs
  generalize (if s.respQ.isEmpty then s else trySendResponse port s) = u at hs hsend hpop hsent
  have hburst : ∀ {β : Type} {p : Burst β}, p.burstSize = 0 ∨ ∃ n, p.burstSize = 2 ^ n := by
    intro β p
    unfold Burst.burstSize
    split
    · exact .inl rfl
    · exact .inr ⟨_, rfl⟩
  have haccept : ∀ (pkt : Packet) (size : Nat), (size = 0 ∨ ∃ n, size = 2 ^ n) →
      acceptBurst lat pkt pkt.tid size (Packet.reqs pkt) u = .ok t → Tracked t := by
    intro pkt size hsize hs
    obtain ⟨hlen, ha⟩ := acceptBurst_eq_ok hs
    have hdu := ha.popped ▸ hd
    obtain ⟨c, hc⟩ := hdu.request (u.now, pkt) (by simp)
    refine (hsent (hdu.sublist ?_)).accept hsend hc hdu.new ?_ ha
    · rw [hpop]
      exact List.sublist_append_left _ _
    · rcases hsize with h0 | ⟨n, hn⟩
      · exact absurd (List.length_eq_zero_iff.mp (hlen.trans h0)) hc.nonempty
      · exact ⟨n, hlen.trans hn⟩
  have hnot : ∀ pkt : Packet, Packet.reqs pkt = [] → t.popped = u.popped ++ [(u.now, pkt)] → False := by
    intro pkt hnil hp
    obtain ⟨c, hc⟩ := hd.request (u.now, pkt) (by rw [hp]; simp)
    exact hc.nonempty hnil
  rcases pkt with _ | p | p | p | p
  · cases hs
    exact hsent (hpop ▸ hd)
  · exact haccept (.readReq p) p.burstSize hburst hs
  · exact haccept (.writeReq p) p.burstSize hburst hs
  · cases hs
    exact (hnot (.readResp p) rfl rfl).elim
  · cases hs
    exact (hnot (.writeResp p) rfl rfl).elim

theorem tracked_step {lat : Nat} {m : BaseMemory} {s t : State} {a : Act} (h : Distinct s.popped → Tracked s)
    (hi : Inv lat m s) (hs : step lat s a = .next t) (hd : Distinct t.popped) : Tracked t := by
  have ht := inv_step hi hs
  rcases a with ⟨port, pkt⟩ | ⟨k, port⟩ | port | _
  · simp only [step] at hs
    split at hs
    · cases hs
    · exact tracked_dmStep (s := { s with stepped := true })
        (fun hd => (h hd).of_same rfl rfl (fun _ => Iff.rfl) rfl rfl) (hi.of_same ⟨rfl, rfl, rfl, rfl, rfl⟩)
        (Outcome.ofExcept_eq_next.mp hs) hd
  · simp only [step] at hs
    split at hs
    · cases hs
    next due e hk =>
    split at hs
    · cases hs
    next hdue =>
    rw [Outcome.ofExcept_eq_next] at hs
    rcases e with b | _
    · obtain ⟨base, x, -, -, hsame⟩ := process_beat hs
      have hperm := pendingBeats_eraseIdx_beat hk
      have hpop : t.popped = s.popped := hsame.popped
      have hev : t.events = s.events.eraseIdx k := hsame.events
      rw [hpop] at hd
      have hb : b ∈ pendingBeats s.events := hperm.symm.subset List.mem_cons_self
      obtain ⟨r, hr, hreq, -⟩ := mem_serialBeats.mp (hi.all.subset (List.mem_append_right _ hb))
      obtain ⟨c, hc⟩ := hd.request r (List.mem_of_getElem? hr)
      obtain ⟨data, hx⟩ := process_handled (s := { s with events := s.events.eraseIdx k }) hc hreq
        ((h hd).tracker b.pkt r hr ⟨b, hb, rfl⟩) hs
      refine (h hd).handle hi ht hr ⟨b, hb, rfl⟩ hc (fun k' r' hk' htid => hd.inj hk' hr htid) ?_
        ⟨hx.popped, hx.served, hx.sent, hx.full, hx.short⟩
      intro k' hne
      unfold State.Open
      rw [hev]
      constructor
      · rintro ⟨b', hb', rfl⟩
        exact ⟨b', hperm.symm.subset (List.mem_cons_of_mem b hb'), rfl⟩
      · rintro ⟨b', hb', rfl⟩
        rcases List.mem_cons.mp (hperm.subset hb') with rfl | hb'
        · exact absurd rfl hne
        · exact ⟨b', hb', rfl⟩
    · cases hs
      refine (Tracked.of_same (h hd) rfl rfl ?_ rfl (trySendResponse_queue port _))
      intro k'
      have hperm := pendingBeats_eraseIdx_send hk
      unfold State.Open
      constructor
      · rintro ⟨b, hb, rfl⟩
        exact ⟨b, hperm.symm.subset hb, rfl⟩
      · rintro ⟨b, hb, rfl⟩
        exact ⟨b, hperm.subset hb, rfl⟩
  · cases hs
    exact (h hd).trySend port
  · simp only [step] at hs
    split at hs
    · cases hs
    · cases hs
      exact (h hd).of_same rfl rfl (fun _ => Iff.rfl) rfl rfl

/-! ## The responses of a run -/

theorem Answers.tid_eq {log : List Served} {k : Nat} {pkt resp : Packet} (h : Answers log k pkt resp) :
    resp.tid = pkt.tid := by
  rcases h with ⟨-, htid, -, -⟩ | ⟨-, htid, -, -⟩ <;> exact htid

/-- A response answers a packet that is not open. -/
theorem Tracked.of_mem {s : State} (h : Tracked s) {resp : Packet} (hx : resp ∈ s.sent ++ s.respQ) :
    ∃ k r, s.popped[k]? = some r ∧ ¬ s.Open k ∧ Answers s.served k r.2 resp := by
  obtain ⟨ks, -, hks, hall⟩ := h.answered
  rw [List.forall₂_iff_get] at hall
  obtain ⟨i, hi, rfl⟩ := List.getElem_of_mem hx
  have hi' : i < ks.length := hall.1 ▸ hi
  obtain ⟨r, hr, ha⟩ := hall.2 i hi' hi
  exact ⟨ks[i], r, hr, ((hks _).mp (List.getElem_mem hi')).2, ha⟩

/-- Responses carry ids of their own. -/
theorem Tracked.nodup {s : State} (h : Tracked s) (hd : Distinct s.popped) :
    ((s.sent ++ s.respQ).map Packet.tid).Nodup := by
  obtain ⟨ks, hnd, -, hall⟩ := h.answered
  have htids : ks.map (fun k => s.popped[k]?.map (·.2.tid)) = (s.sent ++ s.respQ).map (some ∘ Packet.tid) := by
    rw [← List.forall₂_eq_eq_eq, List.forall₂_map_left_iff, List.forall₂_map_right_iff]
    refine hall.imp ?_
    rintro k resp ⟨r, hr, ha⟩
    rw [hr, Option.map_some, Function.comp_apply, ha.tid_eq]
  rw [← List.map_map] at htids
  refine List.Nodup.of_map some (htids ▸ hnd.map_on ?_)
  intro k hk k' hk' heq
  have hget : ∀ k ∈ ks, ∃ r, s.popped[k]? = some r := by
    intro k hk
    obtain ⟨i, hi, rfl⟩ := List.getElem_of_mem hk
    rw [List.forall₂_iff_get] at hall
    obtain ⟨r, hr, -⟩ := hall.2 i hi (hall.1 ▸ hi)
    exact ⟨r, hr⟩
  obtain ⟨r, hr⟩ := hget k hk
  obtain ⟨r', hr'⟩ := hget k' hk'
  rw [hr, hr'] at heq
  exact hd.inj hr hr' (Option.some.inj heq)

/-- The packets that an action pops. -/
def Act.pops : Act → List Packet
  | .dmStep _ (some p) => [p]
  | _ => []

theorem acceptPacket_records {lat : Nat} {pkt : Packet} {s t : State} (h : acceptPacket lat pkt s = .ok t) :
    t.sent = s.sent ∧ t.popped = s.popped ++ [(s.now, pkt)] := by
  have hburst : ∀ {tid n : Nat} {reqs : List Req}, acceptBurst lat pkt tid n reqs s = .ok t →
      t.sent = s.sent ∧ t.popped = s.popped ++ [(s.now, pkt)] := by
    intro tid n reqs h
    unfold acceptBurst at h
    split at h
    · cases h
    · cases h
      exact ⟨rfl, rfl⟩
  unfold acceptPacket at h
  split at h
  · exact hburst h
  · exact hburst h
  · cases h
    exact ⟨rfl, rfl⟩

theorem collect_sent (s : State) (tid : Nat) (tk : Tracker) (n : Nat) (resp : Packet) :
    s.sent <+: (s.collect tid tk n resp).sent := by
  unfold State.collect
  split <;> exact List.prefix_rfl

theorem process_sent {port : Port} {e : Event} {s t : State} (h : process port e s = .ok t) : s.sent <+: t.sent := by
  rcases e with b | _
  · unfold process at h
    rcases hb : b.req with p | p
    · simp only [hb] at h
      obtain ⟨⟨u, w⟩, hu, h⟩ := Except.bind_eq_ok.mp h
      obtain ⟨w', -, hw⟩ := Except.bind_eq_ok.mp hu
      cases hw
      cases h
      exact collect_sent _ _ _ _ _
    · simp only [hb] at h
      obtain ⟨u, hu, h⟩ := Except.bind_eq_ok.mp h
      obtain ⟨base, -, hw⟩ := Except.bind_eq_ok.mp hu
      cases hw
      cases h
      exact collect_sent { s with base } _ _ _ _
  · cases h
    exact List.prefix_append _ _

/-- What an action adds to the records of the packets. -/
theorem step_records {lat : Nat} {s t : State} {a : Act} (h : step lat s a = .next t) :
    s.sent <+: t.sent ∧ t.popped.map (·.2) = s.popped.map (·.2) ++ a.pops := by
  rcases a with ⟨port, pkt⟩ | ⟨k, port⟩ | port | _
  · simp only [step] at h
    split at h
    · cases h
    have h := Outcome.ofExcept_eq_next.mp h
    unfold dmStep at h
    have hsend : ∀ u : State, s.sent <+: (if u.respQ.isEmpty then { s with stepped := true }
        else trySendResponse port { s with stepped := true }).sent := by
      intro u
      split
      · exact List.prefix_rfl
      · exact List.prefix_append _ _
    have hpop : ∀ u : State, (if u.respQ.isEmpty then { s with stepped := true }
        else trySendResponse port { s with stepped := true }).popped = s.popped := by
      intro u
      split <;> rfl
    rcases pkt with _ | pkt
    · cases h
      exact ⟨hsend _, by rw [hpop]; exact (List.append_nil _).symm⟩
    · obtain ⟨hs, hp⟩ := acceptPacket_records h
      refine ⟨hs ▸ hsend _, ?_⟩
      rw [hp, hpop, List.map_append]
      rfl
  · simp only [step] at h
    split at h
    · cases h
    next due e hk =>
    split at h
    · cases h
    have h := Outcome.ofExcept_eq_next.mp h
    have hsent := process_sent h
    refine ⟨hsent, ?_⟩
    rcases e with b | _
    · obtain ⟨base, x, -, -, hsame⟩ := process_beat h
      rw [hsame.popped]
      exact (List.append_nil _).symm
    · cases h
      exact (List.append_nil _).symm
  · cases h
    exact ⟨List.prefix_append _ _, (List.append_nil _).symm⟩
  · simp only [step] at h
    split at h
    · cases h
    · cases h
      exact ⟨List.prefix_rfl, (List.append_nil _).symm⟩

/-- **Burst reassembly.** In every run whose requests carry ids of their own, the response packets that were made
answer the requests no beat of which is scheduled any more, each once; the trackers are those of the others. The
values in the responses are those the beats returned in the order they were served. -/
theorem reassembles {lat : Nat} {m : BaseMemory} {as : List Act} {t : State}
    (hr : Reaches (step lat) (init m) as t) (hd : Distinct t.popped) :
    (∃ ks : List Nat, ks.Nodup ∧ (∀ k, k ∈ ks ↔ k < t.popped.length ∧ ¬ t.Open k) ∧
      List.Forall₂ (fun k resp => ∃ r, t.popped[k]? = some r ∧ Answers t.served k r.2 resp) ks
        (t.sent ++ t.respQ)) ∧
    (∀ d, t.pending d ≠ none ↔ ∃ k r, t.popped[k]? = some r ∧ r.2.tid = d ∧ t.Open k) ∧
    execAll serveBeat (t.served.map (·.beat)) m = .ok (t.base, t.served) := by
  have h : Inv lat m t ∧ (Distinct t.popped → Tracked t) := by
    refine hr.inv' (I := fun s => Inv lat m s ∧ (Distinct s.popped → Tracked s)) ?_
      ⟨inv_init lat m, fun _ => tracked_init m⟩
    intro s a u ⟨hi, ht⟩ hs
    exact ⟨inv_step hi hs, tracked_step ht hi hs⟩
  obtain ⟨hi, ht⟩ := h
  have ht := ht hd
  refine ⟨ht.answered, fun d => ⟨ht.owner d, ?_⟩, hi.ran⟩
  rintro ⟨k, r, hk, rfl, ho⟩
  rw [ht.tracker k r hk ho]
  exact Option.some_ne_none _

theorem distinct_burstThenLoad : Distinct [(0, storeBurst), (1, loadWord 16)] where
  request := by
    intro r hr
    rcases List.mem_cons.mp hr with rfl | hr
    · refine ⟨.dma, ?_, ?_, ?_, rfl⟩ <;> simp [Packet.reqs, storeBurst, Req.tid, Req.caller, Packet.tid]
    · rw [List.mem_singleton.mp hr]
      exact ⟨.cpu, isRequest_readSingle _ _ _ _ _ _⟩
  nodup := by decide

theorem reassembles_burstThenLoad :
    (∃ ks : List Nat, ks.Nodup ∧
      (∀ k, k ∈ ks ↔ k < (afterLoad 16).popped.length ∧ ¬ (afterLoad 16).Open k) ∧
      List.Forall₂ (fun k resp => ∃ r, (afterLoad 16).popped[k]? = some r ∧
        Answers (afterLoad 16).served k r.2 resp) ks ((afterLoad 16).sent ++ (afterLoad 16).respQ)) ∧
    (∀ d, (afterLoad 16).pending d ≠ none ↔
      ∃ k r, (afterLoad 16).popped[k]? = some r ∧ r.2.tid = d ∧ (afterLoad 16).Open k) ∧
    execAll serveBeat ((afterLoad 16).served.map (·.beat)) zeroMemory =
      .ok ((afterLoad 16).base, (afterLoad 16).served) := by
  have hpop : (afterLoad 16).popped = [(0, storeBurst), (1, loadWord 16)] := by decide +kernel
  exact @reassembles 1 zeroMemory (burstThenLoad 16) (afterLoad 16) rfl (hpop ▸ distinct_burstThenLoad)

end SocModel.DataMem
