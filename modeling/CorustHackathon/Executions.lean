import CorustHackathon.Runs
import Mathlib.Order.ConditionallyCompleteLattice.Basic
import Mathlib.Order.Lattice.Nat

/-! # Infinite executions of labelled transition systems

A run is finite, so that it says what can never happen.  What must happen in the end is said of an
`Execution`, an infinite sequence of steps: `Execution.run` says that what it does first is a run,
and `Execution.settles` is the rule for progress: a bounded measure that no step decreases is
increased by finitely many steps only. -/

namespace CorustHackathon

variable {σ α : Type*} {step : σ → α → σ → Prop}

/-- An infinite sequence of steps. -/
structure Execution (step : σ → α → σ → Prop) where
  state : ℕ → σ
  label : ℕ → α
  next : ∀ i, step (state i) (label i) (state (i + 1))

namespace Execution

variable (e : Execution step)

/-- What an execution does first is a run. -/
theorem run (n : ℕ) : Run step (e.state 0) ((List.range n).map e.label) (e.state n) := by
  induction n with
  | zero => exact .nil
  | succ n ih =>
      rw [List.range_succ, List.map_append]
      exact ih.snoc (e.next n)

/-- **Progress rule**: a bounded measure that no step decreases stays the same in the end. -/
theorem settles {m : σ → ℕ} {b : ℕ} (hb : ∀ i, m (e.state i) ≤ b)
    (hm : ∀ i, m (e.state i) ≤ m (e.state (i + 1))) :
    ∃ n, ∀ i, n ≤ i → m (e.state (i + 1)) = m (e.state i) := by
  have hbdd : BddAbove (Set.range (m ∘ e.state)) := ⟨b, by rintro _ ⟨i, rfl⟩; exact hb i⟩
  have hmono : Monotone (m ∘ e.state) := monotone_nat_of_le_succ hm
  obtain ⟨n, hn⟩ := Nat.sSup_mem (Set.range_nonempty _) hbdd
  have htop : ∀ i, m (e.state i) ≤ m (e.state n) := fun i =>
    (le_csSup hbdd ⟨i, rfl⟩).trans_eq hn.symm
  refine ⟨n, fun i hi => le_antisymm ?_ (hm i)⟩
  calc
    m (e.state (i + 1)) ≤ m (e.state n) := htop (i + 1)
    _ ≤ m (e.state i) := hmono hi

end Execution

end CorustHackathon
