import Mathlib.Data.Finset.Insert
import Mathlib.Data.Finset.Erase

/-! # Condition variables

`Condvar P` is the state of a condition variable for parties of type `P`: its wait set, and the
parties that a notification has taken out of it and that have not gone on yet.  A party `enter`s
the wait set when it begins to wait, in one step with the release of its mutex, and `goOn` takes it
out, after a notification or without one.

A notification that finds the wait set empty is lost.  `NotifyOne.waiting_of_subset` is what a
waiter can rely on: where no other party waits, nobody is left in the wait set. -/

namespace CorustHackathon

/-- A condition variable: the wait set, and the wake-ups that are set aside. -/
structure Condvar (P : Type*) where
  waiting : Finset P
  notified : Finset P

namespace Condvar

variable {P : Type*}

def empty : Condvar P := ⟨∅, ∅⟩

variable [DecidableEq P]

/-- `p` begins to wait. -/
def enter (c : Condvar P) (p : P) : Condvar P := { c with waiting := insert p c.waiting }

/-- `p` stops waiting. -/
def goOn (c : Condvar P) (p : P) : Condvar P :=
  { waiting := c.waiting.erase p, notified := c.notified.erase p }

/-- `notify_one`: it wakes one member of the wait set, or is lost. -/
inductive NotifyOne (c : Condvar P) : Condvar P → Prop
  | lost : c.waiting = ∅ → NotifyOne c c
  | wake {p : P} : p ∈ c.waiting →
      NotifyOne c { waiting := c.waiting.erase p, notified := insert p c.notified }

namespace NotifyOne

variable {c c' : Condvar P}

/-- A notification leaves the parties that wait, and adds none. -/
theorem mem_iff (h : NotifyOne c c') (p : P) :
    p ∈ c'.waiting ∨ p ∈ c'.notified ↔ p ∈ c.waiting ∨ p ∈ c.notified := by
  cases h with
  | lost => rfl
  | @wake q hq =>
      by_cases hp : p = q
      · simp [hp, hq]
      · simp [hp]

/-- The only waiter is woken. -/
theorem waiting_of_subset (h : NotifyOne c c') {p : P} (hc : c.waiting ⊆ {p}) :
    c'.waiting = ∅ := by
  cases h with
  | lost he => exact he
  | @wake q hq =>
      obtain rfl := Finset.mem_singleton.mp (hc hq)
      rw [Finset.eq_empty_iff_forall_notMem]
      intro r hr
      rw [Finset.mem_erase] at hr
      exact hr.1 (Finset.mem_singleton.mp (hc hr.2))

end NotifyOne

end Condvar

end CorustHackathon
