import Mathlib.Logic.Function.Basic
import CorustHackathon.Runs

/-! # What a task manager is for

The abstract manager: each task, named by an element of `ι`, has a life, and each operation of
the manager acts on it in one step.  A task is submitted and waits; from there it is either
discarded or started, once; a running task can be signalled, and it comes to an end.  There
are no locks, no queues and no permits, and a task that is moved from one collection to another
is never in neither. -/

namespace CorustHackathon.TaskManager.Spec

open Function (update)

/-- The life of a task. -/
inductive Life where
  | unborn
  /-- It has a name, but nobody can find it yet. -/
  | drawn
  | waiting
  /-- It was taken back before it started. -/
  | discarded
  | running (signalled : Bool)
  | done
deriving DecidableEq, Repr

namespace Life

/-- A running task is told to stop. -/
def signal : Life → Life
  | running _ => running true
  | l => l

/-- A waiting task is taken back. -/
def discard : Life → Life
  | waiting => discarded
  | l => l

/-- How far a life has come. -/
def stage : Life → ℕ
  | unborn => 0
  | drawn => 1
  | waiting => 2
  | discarded => 3
  | running false => 3
  | running true => 4
  | done => 5

theorem stage_le_signal (l : Life) : l.stage ≤ l.signal.stage := by
  cases l with
  | running f => cases f <;> decide
  | _ => exact le_rfl

theorem stage_le_discard (l : Life) : l.stage ≤ l.discard.stage := by
  cases l <;> first | exact le_rfl | decide

end Life

/-- The lives of all tasks. -/
abbrev State (ι : Type*) := ι → Life

/-- The operations. -/
inductive Op (ι : Type*) where
  | draw (d : ι)
  | submit (d : ι)
  | discard (d : ι)
  | discardAll
  | start (d : ι)
  | signal (d : ι)
  | signalAll
  | finish (d : ι)

variable {ι : Type*} [DecidableEq ι]

namespace Op

/-- When an operation is possible. -/
def Enabled (A : State ι) : Op ι → Prop
  | draw d => A d = .unborn
  | submit d => A d = .drawn
  | discard d => A d = .waiting
  | discardAll => True
  | start d => A d = .waiting
  | signal d => (∃ f, A d = .running f) ∨ A d = .done
  | signalAll => True
  | finish d => ∃ f, A d = .running f

/-- What an operation does. -/
def apply (A : State ι) : Op ι → State ι
  | draw d => update A d .drawn
  | submit d => update A d .waiting
  | discard d => update A d .discarded
  | discardAll => fun d => (A d).discard
  | start d => update A d (.running false)
  | signal d => update A d (A d).signal
  | signalAll => fun d => (A d).signal
  | finish d => update A d .done

end Op

/-- A step of the abstract manager. -/
def Step (A : State ι) (o : Op ι) (A' : State ι) : Prop := o.Enabled A ∧ A' = o.apply A

theorem eq_of_run {A A' : State ι} {os : List (Op ι)} (h : Run Step A os A') :
    A' = os.foldl Op.apply A := by
  induction h with
  | nil => rfl
  | snoc _ hs ih => rw [List.foldl_append, ← ih]; exact hs.2

/-- No task goes back in its life. -/
theorem Step.stage_le {A A' : State ι} {o : Op ι} (h : Step A o A') (d : ι) :
    (A d).stage ≤ (A' d).stage := by
  obtain ⟨he, rfl⟩ := h
  cases o with
  | discardAll => exact Life.stage_le_discard _
  | signalAll => exact Life.stage_le_signal _
  | signal e =>
      by_cases hd : d = e
      · subst hd; simpa [Op.apply] using Life.stage_le_signal _
      · simp [Op.apply, hd]
  | finish e =>
      obtain ⟨f, hf⟩ := he
      by_cases hd : d = e
      · subst hd
        cases f <;> simp [Op.apply, hf, Life.stage]
      · simp [Op.apply, hd]
  | draw e | submit e | discard e | start e =>
      have he : A e = _ := he
      by_cases hd : d = e
      · subst hd; simp [Op.apply, he, Life.stage]
      · simp [Op.apply, hd]

theorem stage_le_of_run {A A' : State ι} {os : List (Op ι)} (h : Run Step A os A') (d : ι) :
    (A d).stage ≤ (A' d).stage :=
  h.le_of_step (f := fun A => (A d).stage) fun _ _ _ hs => hs.stage_le d

/-- A discarded task stays discarded. -/
theorem Step.discarded {A A' : State ι} {o : Op ι} (h : Step A o A') {d : ι}
    (hd : A d = .discarded) : A' d = .discarded := by
  obtain ⟨he, rfl⟩ := h
  cases o with
  | discardAll | signalAll => simp [Op.apply, hd, Life.discard, Life.signal]
  | draw e | submit e | discard e | start e =>
      have he : A e = _ := he
      by_cases hde : d = e
      · subst hde; rw [hd] at he; cases he
      · simpa [Op.apply, hde] using hd
  | finish e =>
      obtain ⟨f, hf⟩ := he
      by_cases hde : d = e
      · subst hde; rw [hd] at hf; cases hf
      · simpa [Op.apply, hde] using hd
  | signal e =>
      by_cases hde : d = e
      · subst hde; simp [Op.apply, hd, Life.signal]
      · simpa [Op.apply, hde] using hd

/-- A task is started at most once, and never after it was discarded. -/
theorem discarded_of_run {A A' : State ι} {os : List (Op ι)} (h : Run Step A os A') {d : ι}
    (hd : A d = .discarded) : A' d = .discarded :=
  h.preserves (I := fun A => A d = .discarded) (fun _ _ _ hi hs => hs.discarded hi) hd

end CorustHackathon.TaskManager.Spec
