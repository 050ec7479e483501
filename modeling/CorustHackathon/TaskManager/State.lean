import Mathlib.Data.Finmap
import CorustHackathon.Locks

/-! # The task manager: states

The data of `task_manager/src/lib.rs`: the shared `Tasks` (semaphore, `waiting`, `ongoing`), the
channel, the background thread with its `JoinSet`, and the program counters of everyone who
runs the code: the callers of `spawn_task` and `cancel`, the futures made by
`Task::into_future`, the background thread of `TaskManager::new` and `Drop`.

* **Keys.** `spawn_task` draws its key from the static `KEY`, an `AtomicUsize` shared by all
  managers, with a wrapping `fetch_add`.  `KEY : ℕ` counts the draws; the draw `d` returns
  the key `keyOf d = d % 2 ^ 64`.  A call of `spawn_task`, the boxed task it inserts and the
  `Task` message it sends are all named by their draw, which is never reused; their key is.
* **Tokens.** A future creates at most one `CancellationToken`, so a token is named by the
  future that created it; `cancelled` is the flag its clones share.
* **Program counters.** Every acquisition of one of the two locks is a state of its own, before
  and after, so that the interleavings are those of the lock acquisitions.  Between two
  acquisitions a party does at most one thing that another party can see. -/

namespace CorustHackathon.TaskManager

/-- The number of values of `usize`. -/
def usizeSize : ℕ := 2 ^ 64

/-- The key that draw `d` of `KEY.fetch_add(1, Ordering::Relaxed)` returns. -/
def keyOf (d : ℕ) : ℕ := d % usizeSize

theorem keyOf_of_lt {d : ℕ} (h : d < usizeSize) : keyOf d = d := Nat.mod_eq_of_lt h

theorem keyOf_inj {d d' : ℕ} (h : d < usizeSize) (h' : d' < usizeSize)
    (he : keyOf d = keyOf d') : d = d' := by
  rwa [keyOf_of_lt h, keyOf_of_lt h'] at he

/-- `TaskContext<usize>`: the key, and the token by its creator. -/
structure TaskContext where
  key : ℕ
  cancel : ℕ
deriving DecidableEq, Repr

/-- `HashMap<usize, Box<dyn AsTask<usize>>>`: key to boxed task. -/
abbrev TaskMap := Finmap fun _ : ℕ => ℕ

/-- `HashSet<TaskContext<usize>>`.  Contexts hash and compare by their key, and are looked up by
it (`Borrow<usize>`), so the set is a map from the key to the token. -/
abbrev ContextSet := Finmap fun _ : ℕ => ℕ

/-- `HashSet::insert`: an equal element that is already there stays. -/
def ContextSet.insertContext (s : ContextSet) (c : TaskContext) : ContextSet :=
  if c.key ∈ s then s else s.insert c.key c.cancel

/-- The contexts that `iter` goes through include one with token `tok`. -/
def ContextSet.HasToken (s : ContextSet) (tok : ℕ) : Prop := ∃ k ∈ s.keys, s.lookup k = some tok

instance (s : ContextSet) (tok : ℕ) : Decidable (s.HasToken tok) :=
  inferInstanceAs (Decidable (∃ k ∈ s.keys, s.lookup k = some tok))

theorem lookup_insert_apply (m : TaskMap) (k b j : ℕ) :
    (m.insert k b).lookup j = if j = k then some b else m.lookup j := by
  by_cases h : j = k
  · subst h; simp
  · simp [h]

theorem lookup_erase_apply (m : TaskMap) (k j : ℕ) :
    (m.erase k).lookup j = if j = k then none else m.lookup j := by
  by_cases h : j = k
  · subst h; simp
  · simp [h, Finmap.lookup_erase_ne h]

theorem lookup_insertContext (s : ContextSet) (c : TaskContext) (j : ℕ) :
    (s.insertContext c).lookup j =
      if j = c.key ∧ s.lookup c.key = none then some c.cancel else s.lookup j := by
  unfold ContextSet.insertContext
  by_cases h : c.key ∈ s
  · have : s.lookup c.key ≠ none := fun hn => Finmap.lookup_eq_none.mp hn h
    simp [h, this]
  · have : s.lookup c.key = none := Finmap.lookup_eq_none.mpr h
    rw [if_neg h, lookup_insert_apply]
    by_cases hj : j = c.key <;> simp [hj, this]

theorem hasToken_iff (s : ContextSet) (tok : ℕ) : s.HasToken tok ↔ ∃ k, s.lookup k = some tok := by
  constructor
  · rintro ⟨k, _, h⟩
    exact ⟨k, h⟩
  · rintro ⟨k, h⟩
    exact ⟨k, Finmap.mem_keys.mpr (Finmap.mem_of_lookup_eq_some h), h⟩

/-! ### Program counters -/

/-- A thread's place in `spawn_task` or `cancel`; it is `idle` outside of both. -/
inductive Call where
  | idle
  /-- `KEY.fetch_add` -/
  | fetchAdd
  /-- `self.tasks.waiting.write()` of `spawn_task` -/
  | lockInsert (d : ℕ)
  /-- `waiting` locked: `.insert(key, Box::new(task))` -/
  | insert (d : ℕ)
  /-- `self.tx.as_ref().unwrap().send(..)` -/
  | send (d : ℕ)
  /-- `self.tasks.waiting.write()` of `cancel` -/
  | lockRemove (k : ℕ)
  /-- `waiting` locked: `.remove(k).is_some()` -/
  | remove (k : ℕ)
  /-- `self.tasks.ongoing.read()` -/
  | readOngoing (k : ℕ)
  /-- `ongoing` read-locked: `.get(k)` and `context.cancel.cancel()` -/
  | get (k : ℕ)
deriving DecidableEq, Repr

/-- The branches of the `tokio::select!`. -/
inductive Branch where
  | run
  | cancelled
deriving DecidableEq, Repr

/-- How the body of a future was left; `b` is the boxed task it took out of `waiting`. -/
inductive Ending where
  /-- The `return Ok(())` of the `let else`. -/
  | missed
  /-- The last expression. -/
  | finished (b : ℕ)
  /-- A callback of the task panicked. -/
  | panicked (b : ℕ)
deriving DecidableEq, Repr

/-- A future's place in the body of `Task::into_future`. -/
inductive Fut where
  /-- The `Task` has not been received; there is no future. -/
  | unspawned
  /-- `self.tasks.semaphore.acquire().await` -/
  | acquire
  /-- `self.tasks.ongoing.write()` at the start -/
  | lockOngoing
  /-- `ongoing` locked: `self.tasks.waiting.write()` -/
  | lockWaiting
  /-- Both locked: `.remove(&self.key)` -/
  | remove
  /-- `ongoing` locked: the `else` block -/
  | elseReturn
  /-- `ongoing` locked: `ongoing.insert(context.clone())` -/
  | insert (b : ℕ)
  /-- At the `tokio::select!` -/
  | select (b : ℕ)
  /-- The `select!` is pending; `en`: its first branch is enabled -/
  | between (b : ℕ) (en : Bool)
  /-- In a pass of the `select!`, with the branches still to be polled -/
  | pass (b : ℕ) (en : Bool) (todo : List Branch)
  /-- The future of `run` is being polled -/
  | polling (b : ℕ) (todo : List Branch)
  /-- `task.on_err(&context, e).await` -/
  | onErr (b : ℕ)
  /-- `task.on_cancel(&context).await` -/
  | onCancel (b : ℕ)
  /-- `self.tasks.ongoing.write()` at the end -/
  | lockRemove (b : ℕ)
  /-- `ongoing` locked: `.remove(&context.key)` -/
  | removeOngoing (b : ℕ)
  /-- The body is left, `_permit` is about to be dropped -/
  | drop (e : Ending)
  /-- The future has ended -/
  | done (e : Ending)
deriving DecidableEq, Repr

/-- The background thread of `TaskManager::new`. -/
inductive Background where
  /-- `Builder::new_multi_thread().enable_time().build().unwrap()` -/
  | build
  /-- `rx.recv().await` -/
  | recv
  /-- `js.join_next().await` -/
  | joinNext
  /-- `js.join_all().await` -/
  | joinAll
  /-- `block_on` has returned; the receiver is dropped -/
  | exited
  /-- The runtime could not be built; the receiver is dropped -/
  | panicked
deriving DecidableEq, Repr

/-- Where `Drop for TaskManager` is. -/
inductive Dropping where
  | alive
  /-- `self.tasks.waiting.write()` -/
  | lockWaiting
  /-- `waiting` locked: `.drain()` -/
  | drain
  /-- `self.tasks.ongoing.write()` -/
  | lockOngoing
  /-- `ongoing` locked: `.iter().for_each(|context| context.cancel.cancel())` -/
  | cancelAll
  /-- `self.tx.take()` -/
  | takeTx
  /-- `self.jh.take().unwrap().join().unwrap()` -/
  | join
  | returned
  | panicked
deriving DecidableEq, Repr

/-- Those who run the code of a manager. -/
inductive Party where
  | caller (c : ℕ)
  | future (t : ℕ)
  | dropper
  | background
deriving DecidableEq, Repr

/-! ### The manager -/

/-- A `TaskManager<usize>`, with the parties that run its code. -/
structure Manager where
  /-- The available permits of `semaphore`. -/
  permits : ℕ
  waiting : TaskMap
  waitingLock : RwLock Party
  ongoing : ContextSet
  ongoingLock : RwLock Party
  /-- The flags of the cancellation tokens. -/
  cancelled : ℕ → Bool
  /-- The `Task`s in the channel, the oldest first. -/
  chan : List ℕ
  /-- The sender is still there. -/
  tx : Bool
  background : Background
  /-- The entries of the `JoinSet`.  An entry awaits the `JoinHandle` of its future and does
  nothing else, so it is completed when the future has ended. -/
  js : List ℕ
  call : ℕ → Call
  fut : ℕ → Fut
  dropping : Dropping

/-- A manager and the static `KEY`. -/
structure Sys extends Manager where
  KEY : ℕ

/-- `TaskManager::new` with `Tasks::new(parallel_num)`. -/
def Manager.new (parallel_num : ℕ) : Manager where
  permits := parallel_num
  waiting := ∅
  waitingLock := .free
  ongoing := ∅
  ongoingLock := .free
  cancelled := fun _ => false
  chan := []
  tx := true
  background := .build
  js := []
  call := fun _ => .idle
  fut := fun _ => .unspawned
  dropping := .alive

/-- A new manager in a process that has drawn `KEY` keys before. -/
def init (parallel_num : ℕ) (KEY : ℕ) : Sys := { Manager.new parallel_num with KEY := KEY }

/-! ### What a place in the code says -/

namespace Call

/-- The draw of a `spawn_task` that has not sent its `Task`. -/
def draw : Call → Option ℕ
  | lockInsert d | insert d | send d => some d
  | _ => none

/-- The draw of a `spawn_task` that has not inserted its task. -/
def undelivered : Call → Option ℕ
  | lockInsert d | insert d => some d
  | _ => none

def writesWaiting : Call → Bool
  | insert _ | remove _ => true
  | _ => false

def readsOngoing : Call → Bool
  | get _ => true
  | _ => false

end Call

namespace Fut

def writesWaiting : Fut → Bool
  | remove => true
  | _ => false

def writesOngoing : Fut → Bool
  | lockWaiting | remove | elseReturn | insert _ | removeOngoing _ => true
  | _ => false

/-- `_permit` is held. -/
def holdsPermit : Fut → Bool
  | unspawned | acquire | done _ => false
  | _ => true

/-- The future has not tried to take its task out of `waiting`. -/
def before : Fut → Bool
  | unspawned | acquire | lockOngoing | lockWaiting | remove => true
  | _ => false

/-- The future found no task in `waiting`. -/
def missed : Fut → Bool
  | elseReturn | drop .missed | done .missed => true
  | _ => false

/-- The boxed task that the future took out of `waiting`. -/
def box : Fut → Option ℕ
  | insert b | select b | between b _ | pass b _ _ | polling b _ | onErr b | onCancel b
  | lockRemove b | removeOngoing b => some b
  | drop (.finished b) | done (.finished b) | drop (.panicked b) | done (.panicked b) => some b
  | _ => none

/-- The future has inserted its context and not removed it. -/
def entered : Fut → Bool
  | select _ | between _ _ | pass _ _ _ | polling _ _ | onErr _ | onCancel _ | lockRemove _
  | removeOngoing _ => true
  | _ => false

/-- The future has removed its key from `ongoing`. -/
def finished : Fut → Bool
  | drop (.finished _) | done (.finished _) => true
  | _ => false

/-- A callback of the future panicked. -/
def panicked : Fut → Bool
  | drop (.panicked _) | done (.panicked _) => true
  | _ => false

def ended : Fut → Bool
  | done _ => true
  | _ => false

/-- In the `select!`, handlers included. -/
def inSelect : Fut → Bool
  | select _ | between _ _ | pass _ _ _ | polling _ _ | onErr _ | onCancel _ => true
  | _ => false

/-- User code of the task runs: `run` is being polled, or one of the other callbacks. -/
def inCallback : Fut → Bool
  | polling _ _ | onErr _ | onCancel _ => true
  | _ => false

/-- Suspended, or running the code of a future awaited by the body. -/
def awaits : Fut → Bool
  | acquire | between _ _ | pass _ _ _ | polling _ _ | onErr _ | onCancel _ => true
  | _ => false

end Fut

namespace Background

/-- The receiver is alive. -/
def receiving : Background → Bool
  | exited | panicked => false
  | _ => true

end Background

namespace Dropping

def writesWaiting : Dropping → Bool
  | drain => true
  | _ => false

def writesOngoing : Dropping → Bool
  | cancelAll => true
  | _ => false

end Dropping

namespace Sys

/-- Party `p` is in a section that holds the write guard of `waiting`. -/
def writesWaiting (s : Sys) : Party → Prop
  | .caller c => (s.call c).writesWaiting
  | .future t => (s.fut t).writesWaiting
  | .dropper => s.dropping.writesWaiting
  | .background => False

/-- Party `p` is in a section that holds the write guard of `ongoing`. -/
def writesOngoing (s : Sys) : Party → Prop
  | .future t => (s.fut t).writesOngoing
  | .dropper => s.dropping.writesOngoing
  | _ => False

/-- Party `p` is in a section that holds a read guard of `ongoing`. -/
def readsOngoing (s : Sys) : Party → Prop
  | .caller c => (s.call c).readsOngoing
  | _ => False

end Sys

end CorustHackathon.TaskManager
