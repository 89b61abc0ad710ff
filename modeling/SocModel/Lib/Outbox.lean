import Mathlib.Tactic.Common
import Mathlib.Data.List.Basic

/-!
# Lossless outboxes

An outbox is a FIFO queue in front of a register that may refuse a packet. A call finds the register in a
`Port`: whether it reports a stall, and whether it would accept a push. `drain` pops the head exactly when
the push transferred it; `drainUnchecked` pops it whenever the register reports no stall. `Outbox` records
what was offered and what was sent, and `Lossless` is the accounting: the packets offered are the packets
sent followed by the packets queued, in order.

* `lossless_put`, `lossless_drain` : offering and draining keep the accounting;
* `lossless_drainUnchecked` : the unchecked drain keeps it exactly when it meets no refusing register.
-/

namespace SocModel.Lib

/-- What a register answers in one call: `stalled` before the push, `accepts` to the push. -/
structure Port where
  stalled : Bool
  accepts : Bool
  deriving DecidableEq, Repr

/-- The push happens and is accepted. -/
def Port.transfers (p : Port) : Bool := !p.stalled && p.accepts

/-- No stall is reported and yet the push is refused. -/
def Port.refuses (p : Port) : Bool := !p.stalled && !p.accepts

variable {α : Type*}

/-- One attempt to send the head; the queue left and the packets transferred. -/
def drain (p : Port) : List α → List α × List α
  | [] => ([], [])
  | x :: q => if p.transfers then (q, [x]) else (x :: q, [])

/-- One attempt to send the head that takes the absence of a stall for success. -/
def drainUnchecked (p : Port) : List α → List α × List α
  | [] => ([], [])
  | x :: q => if p.stalled then (x :: q, []) else (q, if p.accepts then [x] else [])

@[simp] theorem drain_nil (p : Port) : drain p ([] : List α) = ([], []) := rfl

@[simp] theorem drainUnchecked_nil (p : Port) : drainUnchecked p ([] : List α) = ([], []) := rfl

theorem drain_append (p : Port) (q : List α) : (drain p q).2 ++ (drain p q).1 = q := by
  cases q with
  | nil => rfl
  | cons x q =>
    obtain ⟨stalled, accepts⟩ := p
    cases stalled <;> cases accepts <;> rfl

theorem drainUnchecked_append (p : Port) (q : List α) :
    (drainUnchecked p q).2 ++ (drainUnchecked p q).1 = q ↔ ¬ (q ≠ [] ∧ p.refuses = true) := by
  cases q with
  | nil => simp
  | cons x q =>
    obtain ⟨stalled, accepts⟩ := p
    cases stalled <;> cases accepts <;> simp [drainUnchecked, Port.refuses]

/-- A queue with the record of what entered it and what was transferred out of it. -/
structure Outbox (α : Type*) where
  offered : List α := []
  queue : List α := []
  sent : List α := []
  deriving DecidableEq, Repr

namespace Outbox

/-- Each packet offered was transferred once or is still queued, and the order is kept. -/
def Lossless (b : Outbox α) : Prop := b.offered = b.sent ++ b.queue

instance [DecidableEq α] (b : Outbox α) : Decidable b.Lossless :=
  inferInstanceAs (Decidable (b.offered = b.sent ++ b.queue))

def put (b : Outbox α) (x : α) : Outbox α :=
  { b with offered := b.offered ++ [x], queue := b.queue ++ [x] }

/-- The outbox after a drain of its queue. -/
def after (b : Outbox α) (r : List α × List α) : Outbox α :=
  { b with queue := r.1, sent := b.sent ++ r.2 }

theorem lossless_put {b : Outbox α} (h : b.Lossless) (x : α) : (b.put x).Lossless := by
  unfold Lossless put at *
  simp [h]

theorem lossless_drain {b : Outbox α} (h : b.Lossless) (p : Port) :
    (b.after (drain p b.queue)).Lossless := by
  unfold Lossless after at *
  simp only [List.append_assoc]
  rw [drain_append, h]

theorem lossless_drainUnchecked {b : Outbox α} (h : b.Lossless) (p : Port) :
    (b.after (drainUnchecked p b.queue)).Lossless ↔ ¬ (b.queue ≠ [] ∧ p.refuses = true) := by
  rw [← drainUnchecked_append]
  unfold Lossless after at *
  simp only [List.append_assoc]
  rw [h, List.append_cancel_left_eq]
  exact eq_comm

end Outbox

end SocModel.Lib
