import SocModel.Dma.Completion
import SocModel.Sa.System

/-!
# A multiplication from ENABLE to DONE

* `Poll` : where the one poll of DONE is, `Loading p k poll` : `k` of the requests of the program `p` are served;
* `Inv` : the two transfers, then the tiles; `Inv.step` : the step lemma;
* `multiplies` : when the stages agree, a multiplication that is done has the product of the matrices in the data
  memory, in every run that loses no request, and no step faults;
* `Inv.atRest` : then another one may start, `multiplies_twoColumns` : a configuration that fails.
-/

namespace SocModel.Sa

open Lib Bus Dma

/-! ## Requests and responses -/

def request (addr data : Word) (tid : Nat) : Packet :=
  .writeReq (constructMemWritepktNonBurst {} .SW addr data .sa tid)

def pollRequest (tid : Nat) : Packet :=
  .readReq (constructMemReadpktNonBurst {} .LW 0xF014 { imm := pollMark } .sa tid)

def Program.requests (p : Program) (tid : Nat) : List Packet :=
  [request 0xF004 p.src tid, request 0xF008 p.dst (tid + 1), request 0xF00C p.cfg (tid + 2), request 0xF000 1 (tid + 3)]

/-- The poll waits for its tick, is on its way, or is answered. -/
inductive Poll where
  | scheduled
  | requested (tid : Nat)
  | answered (done : Bool)

namespace Poll

def count : Poll → Nat
  | scheduled => 1
  | _ => 0

def requests : Poll → List Packet
  | requested tid => [pollRequest tid]
  | _ => []

def IsAnswered : Poll → Prop
  | answered _ => True
  | _ => False

end Poll

/-- A response to a poll. -/
def IsAnswer (done : Bool) (p : Packet) : Prop :=
  ∃ (r : ReadResp) (recycled : Nat), p = .readResp (constructMemReadRespPkt [r] .dma .sa recycled) ∧
    r.a1.imm = pollMark ∧ r.data = if done then 1 else 0

/-- The responses on their way back: acknowledgements, then the answer. -/
inductive Responses : Poll → List Packet → Prop
  | nil {poll : Poll} (h : ¬ poll.IsAnswered) : Responses poll []
  | answer {done : Bool} {p : Packet} (h : IsAnswer done p) : Responses (.answered done) [p]
  | ack {poll : Poll} {q : List Packet} (b : Burst WriteResp) (h : Responses poll q) :
    Responses poll (.writeResp b :: q)

theorem Responses.append_ack {poll : Poll} {q : List Packet} (h : Responses poll q) (hn : ¬ poll.IsAnswered)
    (b : Burst WriteResp) : Responses poll (q ++ [.writeResp b]) := by
  induction h with
  | nil h => exact .ack b (.nil h)
  | answer h => exact absurd trivial hn
  | ack b' h ih => exact .ack b' (ih hn)

theorem Responses.append_answer {poll : Poll} {q : List Packet} (h : Responses poll q) (hn : ¬ poll.IsAnswered)
    {done : Bool} {p : Packet} (hp : IsAnswer done p) : Responses (.answered done) (q ++ [p]) := by
  induction h with
  | nil h => exact .answer hp
  | answer h => exact absurd trivial hn
  | ack b h ih => exact .ack b (ih hn)

theorem Responses.congr {poll poll' : Poll} {q : List Packet} (h : Responses poll q) (hn : ¬ poll.IsAnswered)
    (hn' : ¬ poll'.IsAnswered) : Responses poll' q := by
  induction h with
  | nil h => exact .nil hn'
  | answer h => exact absurd trivial hn
  | ack b h ih => exact .ack b (ih hn)

theorem access_request (recycled : Nat) (d : Dma.State) (addr data : Word) (tid : Nat) :
    ∃ b, access recycled d (request addr data tid) =
      (writeDma d addr data).map fun d => { d with respQ := d.respQ ++ [.writeResp b] } := by
  refine ⟨constructMemWriteRespPkt [{ tid, instr := {} }] .dma .sa recycled, ?_⟩
  simp only [access, request, constructMemWritepktNonBurst]
  cases writeDma d addr data <;> rfl

theorem access_poll (recycled : Nat) (d : Dma.State) (tid : Nat) :
    ∃ p, IsAnswer d.done p ∧ access recycled d (pollRequest tid) = .ok { d with respQ := d.respQ ++ [p] } := by
  let r : ReadResp :=
    { tid, instr := {}, op := .LW, data := if d.done then 1 else 0, a1 := { imm := pollMark } }
  refine ⟨.readResp (constructMemReadRespPkt [r] .dma .sa recycled), ⟨r, recycled, rfl, rfl, rfl⟩, ?_⟩
  have hreg : Dma.readRegister d ((0xF014 : Word).toNat % 64) = .ok r.data := rfl
  simp only [access, pollRequest, constructMemReadpktNonBurst, Dma.readMmio, hreg]
  rfl

theorem accept_answer {done : Bool} {p : Packet} (h : IsAnswer done p) (s : State) :
    accept s p = if done then transferDone s else .ok (pokeDMAReady s) := by
  obtain ⟨r, recycled, rfl, himm, hdata⟩ := h
  simp only [accept, handleReadResponse, constructMemReadRespPkt, himm, if_true, hdata]
  cases done <;> rfl

/-! ## Loading a matrix -/

/-- Nothing of the multiplication has happened yet. -/
structure Ready (w : Work) : Prop where
  undone : w.done = false
  tileQ : w.tileQ = []
  chains : w.chains = []
  aMatrix : ∀ i j, w.aMatrix i j = 0
  bMatrix : ∀ i j, w.bMatrix i j = 0
  cMatrix : ∀ i j, w.cMatrix i j = 0

/-- `k` requests of the program `p` are served; the transfer takes `Pre` to `Post`. -/
structure Loading (c : Config) (p : Program) (Pre Post : Store → Store → Prop) (k : Nat) (poll : Poll) (v : View) :
    Prop where
  le : k ≤ 4
  config : v.config = c
  ready : Ready v.work
  polls : v.polls = poll.count
  channel : ∃ tid, v.channel = (p.requests tid).drop k ++ poll.requests
  responses : Responses poll v.dma.respQ
  src : 1 ≤ k → v.dma.srcAddr = p.src
  dst : 2 ≤ k → v.dma.dstAddr = p.dst
  cfg : 3 ≤ k → v.dma.dmaSizeCfg = p.cfg
  before : k < 4 → v.dma.enabled = false ∧ Pre v.dm v.sram ∧ ¬ poll.IsAnswered
  after : k = 4 → (v.dma.enabled = true ∧ v.dma.done = false ∧ Pre v.dm v.sram) ∨
    (v.dma.enabled = false ∧ v.dma.done = true ∧ Post v.dm v.sram)
  answered : poll = .answered true → v.dma.done = true

section

variable {c : Config} {p : Program} {Pre Post : Store → Store → Prop} {k : Nat} {poll : Poll} {v : View}

/-- The DMA serves the next request. -/
theorem Loading.access (h : Loading c p Pre Post k poll v) {q : Packet} {rest : List Packet}
    (hq : v.channel = q :: rest) (recycled : Nat) :
    ∃ d k' poll', access recycled v.dma q = .ok d ∧
      Loading c p Pre Post k' poll' { v with channel := rest, dma := d } := by
  obtain ⟨tid, hch⟩ := h.channel
  rw [hq] at hch
  have hle := h.le
  rcases Nat.eq_or_lt_of_le hle with rfl | hlt
  · cases poll with
    | scheduled | answered => simp [Program.requests, Poll.requests] at hch
    | requested tid' =>
      obtain ⟨rfl, rfl⟩ : q = pollRequest tid' ∧ rest = [] := by
        simpa [Program.requests, Poll.requests] using hch
      obtain ⟨a, ha, hacc⟩ := access_poll recycled v.dma tid'
      refine ⟨_, 4, .answered v.dma.done, hacc, ?_⟩
      exact ⟨le_rfl, h.config, h.ready, h.polls, ⟨tid, rfl⟩, h.responses.append_answer (fun h => h) ha, h.src, h.dst,
        h.cfg, fun h => absurd h (lt_irrefl 4), h.after, fun h => by simpa using h⟩
  · obtain ⟨hen, hpre, hn⟩ := h.before hlt
    interval_cases k <;> obtain ⟨rfl, rfl⟩ := List.cons.inj hch
    · obtain ⟨b, hacc⟩ := access_request recycled v.dma 0xF004 p.src tid
      refine ⟨_, 1, poll, hacc, ?_⟩
      exact ⟨by decide, h.config, h.ready, h.polls, ⟨tid, rfl⟩, h.responses.append_ack hn b, fun _ => rfl,
        fun h => absurd h (by decide), fun h => absurd h (by decide), fun _ => ⟨hen, hpre, hn⟩,
        fun h => absurd h (by decide), h.answered⟩
    · obtain ⟨b, hacc⟩ := access_request recycled v.dma 0xF008 p.dst (tid + 1)
      refine ⟨_, 2, poll, hacc, ?_⟩
      exact ⟨by decide, h.config, h.ready, h.polls, ⟨tid, rfl⟩, h.responses.append_ack hn b, fun _ => h.src le_rfl,
        fun _ => rfl, fun h => absurd h (by decide), fun _ => ⟨hen, hpre, hn⟩,
        fun h => absurd h (by decide), h.answered⟩
    · obtain ⟨b, hacc⟩ := access_request recycled v.dma 0xF00C p.cfg (tid + 2)
      refine ⟨_, 3, poll, hacc, ?_⟩
      exact ⟨by decide, h.config, h.ready, h.polls, ⟨tid, rfl⟩, h.responses.append_ack hn b,
        fun _ => h.src (by decide), fun _ => h.dst le_rfl, fun _ => rfl, fun _ => ⟨hen, hpre, hn⟩,
        fun h => absurd h (by decide), h.answered⟩
    · obtain ⟨b, hacc⟩ := access_request recycled v.dma 0xF000 1 (tid + 3)
      refine ⟨_, 4, poll, hacc, ?_⟩
      exact ⟨le_rfl, h.config, h.ready, h.polls, ⟨tid, rfl⟩, h.responses.append_ack hn b,
        fun _ => h.src (by decide), fun _ => h.dst (by decide), fun _ => h.cfg le_rfl,
        fun h => absurd h (lt_irrefl 4), fun _ => .inl ⟨rfl, rfl, hpre⟩, fun h => absurd (h ▸ trivial) hn⟩

/-- The transfer completes. -/
theorem Loading.transferred (h : Loading c p Pre Post k poll v) (hen : v.dma.enabled = true) {dm sram : Store}
    (hpost : Programmed p v.dma → Pre v.dm v.sram → Post dm sram) :
    Loading c p Pre Post k poll { v with sram, dm, dma := transactionComplete v.dma } := by
  have hk : k = 4 := by
    by_contra hne
    have hlt := lt_of_le_of_ne h.le hne
    rw [(h.before hlt).1] at hen
    cases hen
  subst hk
  have hpre : Pre v.dm v.sram := by
    rcases h.after rfl with ⟨-, -, hpre⟩ | ⟨hoff, -, -⟩
    · exact hpre
    · rw [hoff] at hen
      cases hen
  have hprog : Programmed p v.dma := ⟨h.src (by decide), h.dst (by decide), h.cfg (by decide)⟩
  exact ⟨le_rfl, h.config, h.ready, h.polls, h.channel, h.responses, h.src, h.dst, h.cfg,
    fun h => absurd h (lt_irrefl 4), fun _ => .inr ⟨rfl, rfl, hpost hprog hpre⟩, fun _ => rfl⟩

/-- The poll is sent. -/
theorem Loading.polled (h : Loading c p Pre Post k poll v) (hpos : 0 < v.polls) (tid : Nat) :
    Loading c p Pre Post k (.requested tid)
      { v with channel := v.channel ++ [pollRequest tid], polls := v.polls - 1 } := by
  have hp := h.polls
  cases poll with
  | scheduled =>
    obtain ⟨t, ht⟩ := h.channel
    refine ⟨h.le, h.config, h.ready, by simp [hp, Poll.count], ⟨t, ?_⟩, h.responses.congr (fun h => h) (fun h => h),
      h.src, h.dst, h.cfg, fun hk => ⟨(h.before hk).1, (h.before hk).2.1, fun h => h⟩, h.after, fun h => (nomatch h)⟩
    simp [ht, Poll.requests]
  | requested | answered =>
    simp only [Poll.count] at hp
    omega

/-- A response arrives: an acknowledgement, or the answer to the poll. -/
theorem Loading.delivered (h : Loading c p Pre Post k poll v) {q : Packet} {rest : List Packet}
    (hq : v.dma.respQ = q :: rest) :
    (∃ b, q = .writeResp b ∧ Loading c p Pre Post k poll { v with dma := { v.dma with respQ := rest } }) ∨
      (∃ done, IsAnswer done q ∧ rest = [] ∧ poll = .answered done) := by
  have hr := h.responses
  rw [hq] at hr
  cases hr with
  | answer ha => exact .inr ⟨_, ha, rfl, rfl⟩
  | ack b hr =>
    exact .inl ⟨b, rfl, h.le, h.config, h.ready, h.polls, h.channel, hr, h.src, h.dst, h.cfg, h.before, h.after,
      h.answered⟩

/-- After an answer nothing is on its way to the DMA. -/
theorem Loading.answered_channel {done : Bool} (h : Loading c p Pre Post k (.answered done) v) :
    k = 4 ∧ v.channel = [] := by
  have hk : k = 4 := by
    by_contra hne
    exact (h.before (lt_of_le_of_ne h.le hne)).2.2 trivial
  subst hk
  obtain ⟨tid, hch⟩ := h.channel
  exact ⟨rfl, hch⟩

/-- After the answer that DONE is set the transfer is complete. -/
theorem Loading.answered_done (h : Loading c p Pre Post k (.answered true) v) :
    v.dma.enabled = false ∧ Post v.dm v.sram := by
  rcases h.after h.answered_channel.1 with ⟨-, hd, -⟩ | ⟨hoff, -, hpost⟩
  · rw [h.answered rfl] at hd
    cases hd
  · exact ⟨hoff, hpost⟩

/-- The poll is scheduled again. -/
theorem Loading.again (h : Loading c p Pre Post k (.answered false) v) :
    Loading c p Pre Post k .scheduled { v with dma := { v.dma with respQ := [] }, polls := v.polls + 1 } := by
  obtain ⟨rfl, hch⟩ := h.answered_channel
  exact ⟨le_rfl, h.config, h.ready, congrArg (· + 1) h.polls, ⟨0, hch⟩, .nil fun h => h, h.src, h.dst, h.cfg,
    fun h => absurd h (lt_irrefl 4), h.after, fun h => (nomatch h)⟩

/-- A program is queued. -/
theorem loading_queued (hc : v.config = c) (hr : Ready v.work) (hpolls : v.polls = 1) {tid : Nat}
    (hch : v.channel = p.requests tid) (hresp : v.dma.respQ = []) (hoff : v.dma.enabled = false)
    (hpre : Pre v.dm v.sram) : Loading c p Pre Post 0 .scheduled v :=
  ⟨by decide, hc, hr, hpolls, ⟨tid, by rw [hch]; simp [Poll.requests]⟩, hresp ▸ .nil fun h => h,
    fun h => absurd h (by decide), fun h => absurd h (by decide), fun h => absurd h (by decide),
    fun _ => ⟨hoff, hpre, fun h => h⟩, fun h => absurd h (by decide), fun h => (nomatch h)⟩

end

/-! ## The phases -/

/-- The matrices are unpacked and their tiles are being multiplied, or all are. -/
structure Multiplying (c : Config) (dm : Store) (v : View) : Prop where
  config : v.config = c
  channel : v.channel = []
  responses : v.dma.respQ = []
  off : v.dma.enabled = false
  polls : v.polls = 0
  computing : Computing (tiles c.strideA.toNat c.strideB.toNat) v.work
  product : ∀ i < c.M.toNat, ∀ j < c.N.toNat,
    accumulated v.work.aMatrix v.work.bMatrix (tiles c.strideA.toNat c.strideB.toNat) i j = product c dm i j

/-- The data memory holds the matrices. -/
def Untouched (dm dm' _sram : Store) : Prop := ∀ x, ¬ InWindow x → dm' x = dm x

inductive Inv (c : Config) (dm : Store) (v : View) : Prop
  | loadA {k : Nat} {poll : Poll} (hp : v.phase = .readMatA)
    (h : Loading c c.programA (Untouched dm) (LoadedA c dm) k poll v)
  | loadB {k : Nat} {poll : Poll} (hp : v.phase = .readMatB)
    (h : Loading c c.programB (LoadedA c dm) (fun _ sram => Loaded c dm sram) k poll v)
  | compute (hp : v.phase = .compute) (h : Multiplying c dm v)

/-- The action is not enabled, or leads to a state with the invariant. -/
def Leads (c : Config) (dm : Store) (s : Sys) (a : SysAct) : Prop :=
  sysStep s a = .blocked ∨ ∃ t, sysStep s a = .next t ∧ Inv c dm t.view ∧ Quiet t

section

variable {c : Config} {dm : Store} {s : Sys}

theorem programDma_eq (src dst cfg : Word) (s : State) :
    programDma src dst cfg s = { s with
      reqQ := s.reqQ ++ Program.requests ⟨src, dst, cfg⟩ s.nextTid
      nextTid := s.nextTid + 4
      events := s.events ++ [.poll] } := by
  simp [programDma, pokeDMAReady, dmaWrite, State.request, State.schedule, Program.requests, request]

theorem count_poll_append (l : List Event) : (l ++ [Event.poll]).count .poll = l.count .poll + 1 := by
  rw [List.count_append, List.count_singleton_self]

theorem Quiet.append_poll {s t : Sys} (h : Quiet s) (ht : t.sa.events = s.sa.events ++ [.poll]) : Quiet t := by
  intro e he
  rw [ht] at he
  rcases List.mem_append.mp he with he | he
  · exact h e he
  · exact .inl (List.mem_singleton.mp he)

theorem Untouched.loadedA (hj : Job c) {dm' sram : Store} (h : Untouched dm dm' sram) :
    LoadedA c dm (transfer c.sourceA (onBus c.regionA) dm' sram).1 (transfer c.sourceA (onBus c.regionA) dm' sram).2 := by
  have hl := loadedA_transfer hj dm' sram
  exact ⟨fun i hi k hk => (hl.a i hi k hk).trans (h _ (hj.inMemoryA _ (Rect.cell_mem hi hk))),
    fun x hx => (hl.dm x hx).trans (h x hx)⟩

/-! ## The actions -/

theorem step_access {p : Packet} {ps : List Packet} {recycled : Nat} {d : Dma.State} (hw : s.wire = p :: ps)
    (hd : access recycled s.dma p = .ok d) :
    sysStep s (.access recycled) = .next { s with dma := d, wire := ps } := by
  simp only [sysStep, hw, hd, Outcome.ofExcept_ok, Outcome.bind_next]

theorem transferred_eq {src dst : Rect} (hsrc : srcRect s.dma = src) (hdst : dstRect s.dma = dst) :
    s.transferred.dm = (Sa.transfer src dst s.dm s.sa.sram).1 ∧
      s.transferred.sa.sram = (Sa.transfer src dst s.dm s.sa.sram).2 := by
  subst hsrc hdst
  exact ⟨rfl, rfl⟩

theorem Inv.access (h : Inv c dm s.view) (hq : Quiet s) (recycled : Nat) : Leads c dm s (.access recycled) := by
  cases hw : s.wire with
  | nil => exact .inl (by simp only [sysStep, hw])
  | cons p ps =>
    have hch : s.view.channel = p :: (ps ++ s.sa.reqQ) := by
      show s.wire ++ s.sa.reqQ = _
      rw [hw, List.cons_append]
    cases h with
    | loadA hp h =>
      obtain ⟨d, k, poll, hd, hl⟩ := h.access hch recycled
      exact .inr ⟨{ s with dma := d, wire := ps }, step_access hw hd, .loadA hp hl, hq⟩
    | loadB hp h =>
      obtain ⟨d, k, poll, hd, hl⟩ := h.access hch recycled
      exact .inr ⟨{ s with dma := d, wire := ps }, step_access hw hd, .loadB hp hl, hq⟩
    | compute hp h => exact absurd (hch.symm.trans h.channel) (by simp)

theorem Inv.transfer (hj : Job c) (hA : Agree c) (h : Inv c dm s.view) (hq : Quiet s) : Leads c dm s .transfer := by
  by_cases hen : s.dma.enabled = true
  · refine .inr ⟨s.transferred, by simp only [sysStep, hen, if_true], ?_, hq⟩
    cases h with
    | loadA hp h =>
      refine .loadA hp (h.transferred hen fun hprog hpre => ?_)
      obtain ⟨hsrc, hdst⟩ := hj.rectsA hprog
      obtain ⟨hdm, hsram⟩ := transferred_eq (s := s) hsrc hdst
      rw [hdm, hsram]
      exact Untouched.loadedA hj hpre
    | loadB hp h =>
      refine .loadB hp (h.transferred hen fun hprog hpre => ?_)
      obtain ⟨hsrc, hdst⟩ := hj.rectsB hprog
      rw [(transferred_eq (s := s) hsrc hdst).2]
      exact LoadedA.transfer hj hA hpre
    | compute hp h => exact absurd (hen.symm.trans h.off) (by decide)
  · exact .inl (by simp only [sysStep, hen]; rfl)

theorem Inv.event (h : Inv c dm s.view) (hq : Quiet s) (k recycled : Nat) : Leads c dm s (.event k recycled) := by
  cases hk : s.sa.events[k]? with
  | none => exact .inl (by simp only [sysStep, Sys.onSa, step, hk, Outcome.bind_blocked])
  | some e =>
    by_cases he : e = .poll
    · subst he
      have hcount := count_eraseIdx hk
      rw [if_pos rfl] at hcount
      have hpos : 0 < s.view.polls := by
        show 0 < s.sa.events.count .poll
        omega
      have hview : Sys.view { s with sa := poll { s.sa with events := s.sa.events.eraseIdx k } } =
          { s.view with
            channel := s.view.channel ++ [pollRequest s.sa.nextTid]
            polls := s.view.polls - 1 } := by
        have h1 : (s.sa.events.eraseIdx k).count .poll = s.view.polls - 1 := by
          show _ = s.sa.events.count .poll - 1
          omega
        have h2 : s.wire ++ (s.sa.reqQ ++ [pollRequest s.sa.nextTid]) =
            s.view.channel ++ [pollRequest s.sa.nextTid] := (List.append_assoc _ _ _).symm
        exact congrArg₂ (fun n q => { s.view with polls := n, channel := q }) h1 h2
      refine .inr ⟨{ s with sa := poll { s.sa with events := s.sa.events.eraseIdx k } }, ?_, ?_,
        fun e he => hq e (List.mem_of_mem_eraseIdx he)⟩
      · simp only [sysStep, Sys.onSa, step, hk, runEvent, Outcome.ofExcept_ok, Outcome.bind_next]
      · rw [hview]
        cases h with
        | loadA hp h => exact .loadA hp (h.polled hpos _)
        | loadB hp h => exact .loadB hp (h.polled hpos _)
        | compute hp h =>
          rw [h.polls] at hpos
          omega
    · obtain ⟨t, ht, hv, hqt⟩ := view_statusRead hq hk he recycled
      exact .inr ⟨t, ht, hv ▸ h, hqt⟩

/-! ## The answers -/

/-- The response is taken off the queue. -/
def Sys.popped (s : Sys) : Sys := { s with dma := { s.dma with respQ := [] } }

theorem view_again (s : Sys) :
    Sys.view { s.popped with sa := pokeDMAReady s.sa } =
      { s.view with dma := { s.dma with respQ := [] }, polls := s.view.polls + 1 } :=
  congrArg (fun n => { s.popped.view with polls := n }) (count_poll_append s.sa.events)

/-- The program for `B` is queued behind an empty channel. -/
theorem view_program (hch : s.view.channel = []) :
    Sys.view { s.popped with sa := askDMAtoWrite_matB { s.sa with phase := .readMatB } } =
      { s.view with
        dma := { s.dma with respQ := [] }
        phase := .readMatB
        channel := s.view.config.programB.requests s.sa.nextTid
        polls := s.view.polls + 1 } := by
  obtain ⟨hw, hr⟩ := List.append_eq_nil_iff.mp hch
  have h1 : s.wire ++ (s.sa.reqQ ++ s.view.config.programB.requests s.sa.nextTid) =
      s.view.config.programB.requests s.sa.nextTid := by
    rw [hw, hr, List.nil_append, List.nil_append]
  have h2 := count_poll_append s.sa.events
  rw [askDMAtoWrite_matB, programDma_eq]
  exact congrArg₂ (fun q n => { s.popped.view with phase := .readMatB, channel := q, polls := n }) h1 h2

/-- `A` is loaded: the DMA is programmed for `B`. -/
theorem Loading.next {k : Nat} (hp : s.view.phase = .readMatA)
    (h : Loading c c.programA (Untouched dm) (LoadedA c dm) k (.answered true) s.view) (hq : Quiet s) :
    ∃ t, transferDone s.sa = .ok t ∧ Inv c dm (Sys.view { s.popped with sa := t }) ∧
      Quiet { s.popped with sa := t } := by
  obtain ⟨hoff, hloaded⟩ := h.answered_done
  obtain ⟨-, hch⟩ := h.answered_channel
  have hphase : s.sa.phase = .readMatA := hp
  obtain rfl := h.config
  refine ⟨askDMAtoWrite_matB { s.sa with phase := .readMatB }, by rw [transferDone, hphase], ?_, ?_⟩
  · rw [view_program hch]
    exact .loadB rfl (loading_queued rfl h.ready (congrArg (· + 1) h.polls) rfl rfl hoff hloaded)
  · refine hq.append_poll ?_
    rw [askDMAtoWrite_matB, programDma_eq]

/-- `B` is loaded too: both are unpacked and the first tile starts. -/
theorem Loading.multiply {k : Nat} (hj : Job c) (hA : Agree c) (hp : s.view.phase = .readMatB)
    (h : Loading c c.programB (LoadedA c dm) (fun _ sram => Loaded c dm sram) k (.answered true) s.view)
    (hq : Quiet s) :
    ∃ t, transferDone s.sa = .ok t ∧ Inv c dm (Sys.view { s.popped with sa := t }) ∧
      Quiet { s.popped with sa := t } := by
  obtain ⟨hoff, hloaded⟩ := h.answered_done
  obtain ⟨-, hch⟩ := h.answered_channel
  have hphase : s.sa.phase = .readMatB := hp
  have hr := h.ready
  obtain rfl := h.config
  obtain ⟨a, ha, haij⟩ := unpack_apply s.sa.sram s.sa.aMatrix hj.aligned.1 hA.unpackedA.2 hA.roomA
  obtain ⟨b, hb, hbij⟩ := unpack_apply s.sa.sram s.sa.bMatrix hj.aligned.2 hA.unpackedB.2 hA.roomB
  obtain ⟨t, ht, hm⟩ := computeMatrix_starts (s := { s.sa with aMatrix := a, bMatrix := b, phase := .compute })
    hr.tileQ hr.undone hr.chains hr.cMatrix hA.unpackedA.2 hA.unpackedB.2
  have ha' : unpack s.sa.sram s.sa.aAddr s.sa.strideA.toNat s.sa.aMatrix = .ok a := ha
  have hb' : unpack s.sa.sram s.sa.bAddr s.sa.strideB.toNat s.sa.bMatrix = .ok b := hb
  have hf := hm.frame
  refine ⟨t, ?_, ?_, ?_⟩
  · rw [transferDone, hphase, ha', hb']
    exact ht
  · have hview : Sys.view { s.popped with sa := t } =
        { s.view with dma := { s.dma with respQ := [] }, work := t.work, phase := .compute } := by
      rw [hf]
      rfl
    rw [hview]
    refine .compute rfl ⟨rfl, hch, rfl, hoff, h.polls, hm.computing, fun i hi j hj' => ?_⟩
    show accumulated t.aMatrix t.bMatrix _ i j = _
    rw [hm.aMatrix, hm.bMatrix]
    refine product_of_loaded hA hloaded (fun i j => ?_) (fun i j => ?_) hi hj'
    · exact (haij i j).trans (by rw [show s.sa.aMatrix i j = 0 from hr.aMatrix i j]; rfl)
    · exact (hbij i j).trans (by rw [show s.sa.bMatrix i j = 0 from hr.bMatrix i j]; rfl)
  · rw [hf]
    exact hq

theorem Inv.deliver (hj : Job c) (hA : Agree c) (h : Inv c dm s.view) (hq : Quiet s) : Leads c dm s .deliver := by
  cases hresp : s.dma.respQ with
  | nil => exact .inl (by simp only [sysStep, hresp])
  | cons q rest =>
    suffices hs : ∃ t, accept s.sa q = .ok t ∧
        Inv c dm (Sys.view { s with sa := t, dma := { s.dma with respQ := rest } }) ∧
        Quiet { s with sa := t, dma := { s.dma with respQ := rest } } by
      obtain ⟨t, ht, hi, hqt⟩ := hs
      exact .inr ⟨_, by simp only [sysStep, hresp, Sys.onSa, step, ht, Outcome.ofExcept_ok, Outcome.bind_next], hi, hqt⟩
    cases h with
    | loadA hp h =>
      obtain ⟨b, rfl, hl⟩ | ⟨done, ha, rfl, rfl⟩ := h.delivered hresp
      · exact ⟨s.sa, rfl, .loadA hp hl, hq⟩
      · rw [accept_answer ha]
        cases done with
        | false =>
          refine ⟨pokeDMAReady s.sa, rfl, ?_, hq.append_poll rfl⟩
          exact (view_again s).symm ▸ Inv.loadA hp h.again
        | true => exact Loading.next hp h hq
    | loadB hp h =>
      obtain ⟨b, rfl, hl⟩ | ⟨done, ha, rfl, rfl⟩ := h.delivered hresp
      · exact ⟨s.sa, rfl, .loadB hp hl, hq⟩
      · rw [accept_answer ha]
        cases done with
        | false =>
          refine ⟨pokeDMAReady s.sa, rfl, ?_, hq.append_poll rfl⟩
          exact (view_again s).symm ▸ Inv.loadB hp h.again
        | true => exact Loading.multiply hj hA hp h hq
    | compute hp h => exact absurd (hresp.symm.trans h.responses) (by simp)

theorem Inv.tile (h : Inv c dm s.view) (hq : Quiet s) (k : Nat) (ghost : Nat → Valid8) :
    Leads c dm s (.tile k ghost) := by
  have hnone : s.sa.chains = [] → Leads c dm s (.tile k ghost) := by
    intro hn
    exact .inl (by simp [sysStep, Sys.onSa, step, hn])
  rcases h with ⟨hp, h⟩ | ⟨hp, h⟩ | ⟨hp, h⟩
  · exact hnone h.ready.chains
  · exact hnone h.ready.chains
  · rcases hk : s.sa.chains[k]? with _ | ⟨_ | ⟨e, rest⟩, array⟩
    · exact .inl (by simp only [sysStep, Sys.onSa, step, hk, Outcome.bind_blocked])
    · exact .inl (by simp only [sysStep, Sys.onSa, step, hk, Outcome.bind_blocked])
    · obtain ⟨t, ht, hm⟩ := h.computing.tile hk ghost
      have hf := hm.frame
      refine .inr ⟨{ s with sa := t }, ?_, ?_, ?_⟩
      · simp only [sysStep, Sys.onSa, step, hk, ht, Outcome.ofExcept_ok, Outcome.bind_next]
      · have hview : Sys.view { s with sa := t } = { s.view with work := t.work } := by
          rw [hf]
          rfl
        rw [hview]
        refine .compute hp ⟨h.config, h.channel, h.responses, h.off, h.polls, hm.computing, ?_⟩
        intro i hi j hj
        show accumulated t.aMatrix t.bMatrix _ i j = _
        rw [hm.aMatrix, hm.bMatrix]
        exact h.product i hi j hj
      · rw [hf]
        exact hq

/-- **The step lemma.** -/
theorem Inv.step (hj : Job c) (hA : Agree c) (h : Inv c dm s.view) (hq : Quiet s) {a : SysAct}
    (hc : NoRefusal s a) : Leads c dm s a := by
  cases a with
  | trySend req resp => exact .inr ⟨_, rfl, (view_trySend hc).symm ▸ h, hq⟩
  | access recycled => exact h.access hq recycled
  | transfer => exact h.transfer hj hA hq
  | deliver => exact h.deliver hj hA hq
  | status i op a1 caller tid =>
    obtain ⟨t, ht, hv, hqt⟩ := view_status hq i op a1 caller tid
    exact .inr ⟨t, ht, hv ▸ h, hqt⟩
  | event k recycled => exact h.event hq k recycled
  | tile k ghost => exact h.tile hq k ghost

end

/-! ## Runs -/

/-- No multiplication and no transfer is under way. -/
structure AtRest (s : Sys) : Prop where
  channel : s.view.channel = []
  responses : s.dma.respQ = []
  off : s.dma.enabled = false
  tileQ : s.sa.tileQ = []
  chains : s.sa.chains = []
  polls : s.view.polls = 0
  quiet : Quiet s

/-- A multiplication that is done has the product of the matrices that were in the data memory. -/
def Multiplied (c : Config) (dm : Store) (s : Sys) : Prop :=
  s.sa.done = true → ∀ i < c.M.toNat, ∀ j < c.N.toNat, s.sa.cMatrix i j = BitVec.ofNat 16 (product c dm i j)

theorem Inv.multiplied {c : Config} {dm : Store} {s : Sys} (h : Inv c dm s.view) : Multiplied c dm s := by
  intro hd i hi j hj
  cases h with
  | loadA hp h => exact absurd (hd.symm.trans h.ready.undone) (by decide)
  | loadB hp h => exact absurd (hd.symm.trans h.ready.undone) (by decide)
  | compute hp h =>
    obtain ⟨ts, p, array, -, ht⟩ | ⟨-, -, -, hdep⟩ := h.computing
    · exact absurd (hd.symm.trans ht.undone) (by decide)
    · exact (hdep i j).trans (congrArg _ (h.product i hi j hj))

theorem inv_start {s : Sys} (hr : AtRest s) {t : State} (h : initializedTransaction s.sa = .ok t) :
    Inv s.sa.config s.dm (Sys.view { s with sa := t }) ∧ Quiet { s with sa := t } := by
  unfold initializedTransaction at h
  dsimp only at h
  split at h
  · cases h
  · split at h
    · cases h
    · obtain rfl := Except.ok.inj h
      obtain ⟨hw, hreq⟩ := List.append_eq_nil_iff.mp hr.channel
      have hch : s.wire ++ (s.sa.reqQ ++ s.sa.config.programA.requests s.sa.nextTid) =
          s.sa.config.programA.requests s.sa.nextTid := by
        rw [hw, hreq, List.nil_append, List.nil_append]
      rw [askDMAtoWrite_matA, programDma_eq]
      refine ⟨.loadA rfl (loading_queued rfl ?_ ?_ hch hr.responses hr.off fun _ _ => rfl), ?_⟩
      · exact ⟨rfl, hr.tileQ, hr.chains, fun _ _ => rfl, fun _ _ => rfl, fun _ _ => rfl⟩
      · exact (count_poll_append _).trans (congrArg (· + 1) hr.polls)
      · exact hr.quiet.append_poll rfl

/-- **Main result.** When the stages agree on the configuration, every run from ENABLE that loses no request is free
of faults, and the multiplication has the product of the matrices in the data memory whenever it is done. -/
theorem multiplies (s : Sys) (hr : AtRest s) (hj : Job s.sa.config) (hA : Agree s.sa.config) {t : State}
    (h : initializedTransaction s.sa = .ok t) (as : List SysAct) (hc : Along sysStep NoRefusal { s with sa := t } as) :
    Always sysStep (fun _ => True) (Multiplied s.sa.config s.dm) { s with sa := t } as := by
  refine Always.of_inv (I := fun u => Inv s.sa.config s.dm u.view ∧ Quiet u) (fun u hu => hu.1.multiplied) ?_ ?_
    (inv_start hr h) hc
  · rintro u a v ⟨hi, hq⟩ hca hs
    obtain hb | ⟨w, hw, hiw, hqw⟩ := hi.step hj hA hq hca
    · rw [hb] at hs
      cases hs
    · obtain rfl := Outcome.next.inj (hw.symm.trans hs)
      exact ⟨hiw, hqw⟩
  · rintro u a e ⟨hi, hq⟩ hca hs
    obtain hb | ⟨w, hw, -, -⟩ := hi.step hj hA hq hca
    · rw [hb] at hs
      cases hs
    · rw [hw] at hs
      cases hs

/-- A multiplication that is done leaves nothing behind, so the next one may start. -/
theorem Inv.atRest {c : Config} {dm : Store} {s : Sys} (h : Inv c dm s.view) (hq : Quiet s) (hd : s.sa.done = true) :
    AtRest s := by
  cases h with
  | loadA hp h => exact absurd (hd.symm.trans h.ready.undone) (by decide)
  | loadB hp h => exact absurd (hd.symm.trans h.ready.undone) (by decide)
  | compute hp h =>
    obtain ⟨ts, p, array, -, ht⟩ | ⟨-, hq', he, -⟩ := h.computing
    · exact absurd (hd.symm.trans ht.undone) (by decide)
    · exact ⟨h.channel, h.responses, h.off, hq', he, h.polls, hq⟩

/-! ## Four rows and two columns, one row and two columns -/

/-- Every request of one program of the DMA is sent, served and answered. -/
def loadOnce : List SysAct :=
  List.replicate 4 (.trySend free free) ++ List.replicate 4 (.access 0) ++
    [.transfer, .event 0 0, .trySend free free, .access 0] ++ List.replicate 5 .deliver

/-- A multiplication with `n` tiles. -/
def multiplication (n : Nat) : List SysAct :=
  loadOnce ++ loadOnce ++ List.replicate (8 * n) (.tile 0 fun _ => ⟨false, 0⟩)

theorem along_multiplication (n : Nat) (s : Sys) : Along sysStep NoRefusal s (multiplication n) := by
  refine Along.of_mem (fun a ha s => ?_) s
  cases a with
  | trySend req resp =>
    simp only [multiplication, loadOnce, List.mem_append, List.mem_replicate, List.mem_cons, SysAct.trySend.injEq,
      reduceCtorEq, List.not_mem_nil] at ha
    have hreq : req = free := by tauto
    rintro ⟨-, hr⟩
    rw [hreq] at hr
    cases hr
  | _ => trivial

/-- The result, when the run from ENABLE ends in a multiplication that is done. -/
def finalMatrix (s : Sys) (as : List SysAct) : Option (Nat → Nat → BitVec 16) :=
  match initializedTransaction s.sa with
  | .error _ => none
  | .ok sa =>
    match run sysStep { s with sa } as with
    | .next u => if u.sa.done then some u.sa.cMatrix else none
    | _ => none

theorem finalMatrix_eq_some {s : Sys} {as : List SysAct} {c : Nat → Nat → BitVec 16} (h : finalMatrix s as = some c) :
    ∃ t u, initializedTransaction s.sa = .ok t ∧ Reaches sysStep { s with sa := t } as u ∧ u.sa.done = true ∧
      u.sa.cMatrix = c := by
  unfold finalMatrix at h
  split at h
  · cases h
  · next t ht =>
    split at h
    · next u hr =>
      split at h
      · next hd => exact ⟨t, u, ht, hr, hd, Option.some.inj h⟩
      · cases h
    · cases h

/-- Four rows of four terms and two columns, rows of four bytes, in a data memory whose bytes are their addresses. -/
def fourByTwo : Sys where
  sa := { init with M := 4, K := 4, N := 2, bAddr := 16, bAddrDm := 16, strideA := 4, strideB := 4 }
  wire := []
  dma := Dma.init
  dm := fun x => BitVec.ofNat 8 x

theorem fourByTwo_atRest : AtRest fourByTwo := ⟨rfl, rfl, rfl, rfl, rfl, rfl, fun _ he => absurd he List.not_mem_nil⟩

theorem job_fourByTwo : Job fourByTwo.sa.config :=
  ⟨by decide, by decide, by decide, by decide, by decide, by decide, Rect.forall_bytes.mpr (by decide),
    Rect.forall_bytes.mpr (by decide), Rect.disjoint_of_lt (Rect.forall_bytes.mpr (by decide)),
    Rect.forall_bytes.mpr (by decide), Rect.forall_bytes.mpr (by decide)⟩

theorem agree_fourByTwo : Agree fourByTwo.sa.config :=
  ⟨by decide, by decide, by decide, by decide, by decide, by decide, by decide, by decide,
    .inl (Rect.disjoint_of_lt (Rect.forall_bytes.mpr (by decide)))⟩

theorem multiplies_fourByTwo : ∃ t u, initializedTransaction fourByTwo.sa = .ok t ∧
    Reaches sysStep { fourByTwo with sa := t } (multiplication 8) u ∧ u.sa.done = true ∧
      (∀ i < 4, ∀ j < 2, u.sa.cMatrix i j = BitVec.ofNat 16 (product fourByTwo.sa.config fourByTwo.dm i j)) ∧
      u.sa.cMatrix 3 1 = 12 * 17 + 13 * 21 + 14 * 25 + 15 * 29 := by
  have hrun : (finalMatrix fourByTwo (multiplication 8)).isSome = true := by decide +kernel
  obtain ⟨c, hc⟩ := Option.isSome_iff_exists.mp hrun
  obtain ⟨t, u, ht, hu, hd, -⟩ := finalMatrix_eq_some hc
  have hall := multiplies fourByTwo fourByTwo_atRest job_fourByTwo agree_fourByTwo ht (multiplication 8)
    (along_multiplication 8 _)
  have hproduct := hall.last hu hd
  refine ⟨t, u, ht, hu, hd, hproduct, ?_⟩
  rw [hproduct 3 (by decide) 1 (by decide)]
  decide +kernel

/-- One row of one term and two columns. -/
def twoColumns : Sys where
  sa := { init with M := 1, K := 1, N := 2, bAddr := 4, bAddrDm := 4, strideA := 1, strideB := 2 }
  wire := []
  dma := Dma.init
  dm := fun _ => 1

theorem job_twoColumns : Job twoColumns.sa.config :=
  ⟨by decide, by decide, by decide, by decide, by decide, by decide, Rect.forall_bytes.mpr (by decide),
    Rect.forall_bytes.mpr (by decide), Rect.disjoint_of_lt (Rect.forall_bytes.mpr (by decide)),
    Rect.forall_bytes.mpr (by decide), Rect.forall_bytes.mpr (by decide)⟩

/-- With two columns and one term, only one column of `B` is loaded. -/
theorem multiplies_twoColumns : ¬ ∀ (s : Sys) (t : State), AtRest s → Job s.sa.config →
    initializedTransaction s.sa = .ok t → ∀ as, Along sysStep NoRefusal { s with sa := t } as →
      Always sysStep (fun _ => False) (Multiplied s.sa.config s.dm) { s with sa := t } as := by
  intro h
  have hrun : (finalMatrix twoColumns (multiplication 1)).any (fun c => c 0 1 == 0) = true := by decide +kernel
  obtain ⟨c, hc, hv⟩ := (Option.any_eq_true _ _).mp hrun
  obtain ⟨t, u, ht, hu, hd, rfl⟩ := finalMatrix_eq_some hc
  have hall := h twoColumns t ⟨rfl, rfl, rfl, rfl, rfl, rfl, fun _ he => absurd he List.not_mem_nil⟩ job_twoColumns ht
    (multiplication 1) (along_multiplication 1 _)
  have hc := hall.last hu hd 0 (by decide) 1 (by decide)
  rw [beq_iff_eq.mp hv] at hc
  exact absurd hc (by decide +kernel)

end SocModel.Sa
