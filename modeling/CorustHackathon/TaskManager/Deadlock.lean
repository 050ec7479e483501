import CorustHackathon.TaskManager.Invariant
import CorustHackathon.TaskManager.Sequential

/-! # The task manager: the two locks never deadlock

A party asks for a lock at the places of the code that call `write()` or `read()`.  Only a
starting future asks for one while it holds another, and it asks for `waiting` while it holds
`ongoing`: the lock order is `ongoing` before `waiting`.  The holders of `waiting` ask for
nothing, so `no_deadlock` applies. -/

namespace CorustHackathon.TaskManager

/-- The two locks of `Tasks`. -/
inductive Lock where
  | ongoing
  | waiting
deriving DecidableEq, Repr

inductive Mode where
  | read
  | write
deriving DecidableEq, Repr

/-- The lock that a caller is about to take. -/
def Call.wants : Call → Option (Lock × Mode)
  | lockInsert _ | lockRemove _ => some (.waiting, .write)
  | readOngoing _ => some (.ongoing, .read)
  | _ => none

/-- The lock that a future is about to take. -/
def Fut.wants : Fut → Option (Lock × Mode)
  | lockWaiting => some (.waiting, .write)
  | lockOngoing | lockRemove _ => some (.ongoing, .write)
  | _ => none

/-- The lock that `Drop` is about to take. -/
def Dropping.wants : Dropping → Option (Lock × Mode)
  | lockWaiting => some (.waiting, .write)
  | lockOngoing => some (.ongoing, .write)
  | _ => none

/-- Where the background thread awaits. -/
def Background.awaits : Background → Bool
  | recv | joinNext | joinAll => true
  | _ => false

namespace Sys

variable (s : Sys)

def lock : Lock → RwLock Party
  | .ongoing => s.ongoingLock
  | .waiting => s.waitingLock

/-- Party `p` holds a guard of lock `l`. -/
def Holds (p : Party) (l : Lock) : Prop := (s.lock l).HeldBy p

/-- The lock that party `p` is about to take. -/
def wants : Party → Option (Lock × Mode)
  | .caller c => (s.call c).wants
  | .future t => (s.fut t).wants
  | .dropper => s.dropping.wants
  | .background => none

/-- Party `p` cannot take lock `l`, which it asks for: a writer waits for every guard, a reader
for the guard of a writer, and perhaps also behind a writer that waits. -/
def Blocked (p : Party) (l : Lock) : Prop :=
  (s.wants p = some (l, .write) ∧ ∃ q, s.Holds q l) ∨
  (s.wants p = some (l, .read) ∧ ((∃ q, (s.lock l).WrittenBy q) ∨
    ((∃ q, s.Holds q l) ∧ ∃ w, s.wants w = some (l, .write))))

/-- Party `p` is at an await point (for `Drop`: waits for the thread). -/
def Awaits : Party → Prop
  | .caller _ => False
  | .future t => (s.fut t).awaits
  | .dropper => s.dropping = .join
  | .background => s.background.awaits

/-- Party `p` executes `run`, `on_err` or `on_cancel`. -/
def InCallback : Party → Prop
  | .future t => (s.fut t).inCallback
  | _ => False

variable {s}

theorem Blocked.wants {p : Party} {l : Lock} (h : s.Blocked p l) :
    ∃ m, s.wants p = some (l, m) := by
  rcases h with ⟨h, _⟩ | ⟨h, _⟩ <;> exact ⟨_, h⟩

end Sys

/-- The order in which the locks are taken. -/
def Lock.rank : Lock → ℕ
  | ongoing => 0
  | waiting => 1

/-- A party that writes `waiting` asks for no lock. -/
theorem wants_of_writesWaiting {s : Sys} {p : Party} (h : s.writesWaiting p) :
    s.wants p = none := by
  cases p with
  | caller c => revert h; cases hc : s.call c <;> simp [Sys.wants, Call.wants, hc]
  | future t => revert h; cases ht : s.fut t <;> simp [Sys.wants, Fut.wants, ht]
  | dropper => revert h; cases hd : s.dropping <;> simp [Sys.wants, Dropping.wants, hd]
  | background => rfl

/-- A party that holds `ongoing` asks for no lock but `waiting`. -/
theorem wants_of_holdsOngoing {s : Sys} {p : Party} {l : Lock} {m : Mode}
    (h : s.writesOngoing p ∨ s.readsOngoing p) (hw : s.wants p = some (l, m)) : l = .waiting := by
  cases p with
  | caller c => revert h hw; cases hc : s.call c <;> simp [Sys.wants, Call.wants, hc]
  | future t =>
      revert h hw
      cases ht : s.fut t <;> simp [Sys.wants, Fut.wants, ht]
      exact fun h _ => h.symm
  | dropper => revert h hw; cases hd : s.dropping <;> simp [Sys.wants, Dropping.wants, hd]
  | background => simp [Sys.wants] at hw

/-- The locks are taken in the order of their ranks. -/
theorem LockInv.order {s : Sys} (hI : LockInv s) {p : Party} {l l' : Lock} (h : s.Holds p l)
    (hw : s.Blocked p l') : l.rank < l'.rank := by
  obtain ⟨m, hm⟩ := hw.wants
  cases l with
  | waiting =>
      have hp : s.writesWaiting p := by
        rcases h with h | h
        · exact (hI.waiting.write_iff p).mp h
        · exact absurd ((hI.waiting.read_iff p).mp h) id
      rw [wants_of_writesWaiting hp] at hm
      cases hm
  | ongoing =>
      have hp : s.writesOngoing p ∨ s.readsOngoing p :=
        h.imp (hI.ongoing.write_iff p).mp (hI.ongoing.read_iff p).mp
      rw [wants_of_holdsOngoing hp hm]
      decide

/-- Nobody holds a lock across an await point. -/
theorem LockInv.not_holds_of_awaits {s : Sys} (hI : LockInv s) {p : Party} (h : s.Awaits p)
    (l : Lock) : ¬ s.Holds p l := by
  have hsec : ¬ s.writesWaiting p ∧ ¬ s.writesOngoing p ∧ ¬ s.readsOngoing p := by
    cases p with
    | caller c => exact absurd h id
    | future t => revert h; cases ht : s.fut t <;> simp [Sys.Awaits, Fut.awaits, ht]
    | dropper =>
        have hd : s.dropping = .join := h
        simp [hd]
    | background => simp
  cases l with
  | waiting =>
      rintro (hh | hh)
      · exact hsec.1 ((hI.waiting.write_iff p).mp hh)
      · exact (hI.waiting.read_iff p).mp hh
  | ongoing =>
      rintro (hh | hh)
      · exact hsec.2.1 ((hI.ongoing.write_iff p).mp hh)
      · exact hsec.2.2 ((hI.ongoing.read_iff p).mp hh)

theorem awaits_of_inCallback {s : Sys} {p : Party} (h : s.InCallback p) : s.Awaits p := by
  cases p with
  | future t => revert h; cases ht : s.fut t <;> simp [Sys.Awaits, Sys.InCallback, Fut.awaits,
      Fut.inCallback, ht]
  | _ => exact absurd h id

/-- **The locks never deadlock**: in no reachable state is there a set of parties all blocked on
the locks with all holders in the set, and no party holds a lock at an await point or while a
callback of a task executes. -/
theorem locks_never_deadlock {n KEY : ℕ} {tr : List Label} {s : Sys}
    (h : Run Step (init n KEY) tr s) :
    (∀ D : Set Party, ¬ Deadlocked s.Holds s.Blocked D) ∧
      ∀ p, s.Awaits p ∨ s.InCallback p → ∀ l, ¬ s.Holds p l := by
  have hI := (Inv.of_run h).locks
  refine ⟨no_deadlock Lock.rank 1 (fun l => by cases l <;> decide) fun p l l' => hI.order, ?_⟩
  rintro p (hp | hp) l
  · exact hI.not_holds_of_awaits hp l
  · exact hI.not_holds_of_awaits (awaits_of_inCallback hp) l

/-- A `cancel` that waits for a starting future is blocked, and no deadlock. -/
theorem locks_never_deadlock_blocked : ∃ s : Sys,
    (s.Blocked (.caller 0) .ongoing ∧ s.Holds (.future 0) .ongoing) ∧
      ∀ D : Set Party, ¬ Deadlocked s.Holds s.Blocked D := by
  have h := (((((((built_run 1 0).trans
    (spawn_run (c := 0) rfl rfl rfl rfl)).snoc
    (.call (.callCancel (c := 0) (k := 5) rfl rfl))).snoc
    (.call (.lockRemove (c := 0) (k := 5) rfl rfl))).snoc
    (.call (.notWaiting (c := 0) (k := 5) rfl (by decide)))).snoc
    (.background (@BackgroundStep.receive _ 0 [] rfl rfl))).snoc
    (.fut (.acquire (t := 0) rfl Nat.one_pos))).snoc
    (.fut (.lockOngoing (t := 0) rfl rfl))
  refine ⟨_, ⟨?_, ?_⟩, (locks_never_deadlock h).1⟩
  · exact .inr ⟨rfl, .inl ⟨.future 0, rfl⟩⟩
  · exact .inl rfl

end CorustHackathon.TaskManager
