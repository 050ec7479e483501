import CorustHackathon.Runs

/-! # The simplest task manager

`BasicTaskManager` of `task_manager/src/lib.rs`: `new` spawns a thread that builds a runtime and
receives durations, each of which it spawns a task for; `spawn_sleep_task` sends one.  Nobody joins
the thread, and the manager has no `Drop` of its own: with the manager goes the sender, and the
thread ends its loop once it has received what was sent.

* **Durations.** A duration is named by the number of the call that sent it, next to its value.
* **The runtime.** Its worker threads poll the tasks in any order; the end of a `sleep` is an event
  of the environment that may happen at any time.  When `block_on` returns, the runtime is dropped,
  and with it every task that has not finished, be it at its `sleep` or not polled yet.
* **Panics.** The build of the runtime may fail, and its `unwrap` then drops the receiver; a panic
  of `println!` ends the task it is in. -/

namespace CorustHackathon.BasicTaskManager

open Function (update)

/-- The place of the thread of `new`. -/
inductive Thread where
  /-- `Builder::new_multi_thread().enable_time().build().unwrap()` -/
  | build
  /-- `rx.recv().await` -/
  | recv
  /-- `tokio::spawn(..)` -/
  | spawn (k duration : ℕ)
  /-- `block_on` has returned, the runtime is being dropped -/
  | shutdown
  | ended
  | panicked
deriving DecidableEq, Repr

/-- The place of the task of a duration. -/
inductive Task where
  /-- Not spawned -/
  | absent
  /-- `println!("task {} started", ..)` -/
  | start (duration : ℕ)
  /-- `sleep(duration).await` and `println!("task {} finished", ..)` -/
  | sleep (duration : ℕ)
  | finished
  | panicked
  /-- Dropped with the runtime -/
  | dropped
deriving DecidableEq, Repr

/-- The task may still be polled. -/
def Task.Live : Task → Prop
  | start _ | sleep _ => True
  | _ => False

structure Sys where
  /-- The sender: the manager has not been dropped. -/
  tx : Bool
  queue : List (ℕ × ℕ)
  /-- How many calls of `spawn_sleep_task` have returned `Ok`. -/
  accepted : ℕ
  thread : Thread
  task : ℕ → Task

/-- After `BasicTaskManager::new`. -/
def init : Sys where
  tx := true
  queue := []
  accepted := 0
  thread := .build
  task := fun _ => .absent

inductive Label where
  | sendOk (k duration : ℕ)
  | sendErr
  | dropManager
  | build
  | buildPanics
  | recv (k duration : ℕ)
  | closed
  | spawn (k duration : ℕ)
  | ended
  | started (k duration : ℕ)
  | finished (k duration : ℕ)
  | printPanics (k : ℕ)
  | cut (k : ℕ)
deriving DecidableEq, Repr

/-- What the owner of the manager does. -/
inductive OwnerStep (s : Sys) : Label → Sys → Prop
  | sendOk {d : ℕ} : s.tx = true → s.thread ≠ .panicked →
      OwnerStep s (.sendOk s.accepted d)
        { s with queue := s.queue ++ [(s.accepted, d)], accepted := s.accepted + 1 }
  -- the receiver is gone
  | sendErr : s.tx = true → s.thread = .panicked → OwnerStep s .sendErr s
  | dropManager : s.tx = true → OwnerStep s .dropManager { s with tx := false }

/-- The steps of the thread. -/
inductive ThreadStep (s : Sys) : Label → Sys → Prop
  | build : s.thread = .build → ThreadStep s .build { s with thread := .recv }
  | buildPanics : s.thread = .build →
      ThreadStep s .buildPanics { s with thread := .panicked, queue := [] }
  | recv {k d : ℕ} {queue : List (ℕ × ℕ)} : s.thread = .recv → s.queue = (k, d) :: queue →
      ThreadStep s (.recv k d) { s with thread := .spawn k d, queue := queue }
  | closed : s.thread = .recv → s.queue = [] → s.tx = false →
      ThreadStep s .closed { s with thread := .shutdown }
  | spawn {k d : ℕ} : s.thread = .spawn k d →
      ThreadStep s (.spawn k d) { s with thread := .recv, task := update s.task k (.start d) }
  | cut {k : ℕ} : s.thread = .shutdown → (s.task k).Live →
      ThreadStep s (.cut k) { s with task := update s.task k .dropped }
  | ended : s.thread = .shutdown → (∀ k, ¬ (s.task k).Live) →
      ThreadStep s .ended { s with thread := .ended }

/-- The steps of the task `k`. -/
inductive TaskStep (k : ℕ) (s : Sys) : Label → Sys → Prop
  | started {d : ℕ} : s.task k = .start d →
      TaskStep k s (.started k d) { s with task := update s.task k (.sleep d) }
  | finished {d : ℕ} : s.task k = .sleep d →
      TaskStep k s (.finished k d) { s with task := update s.task k .finished }
  | printPanics : (s.task k).Live →
      TaskStep k s (.printPanics k) { s with task := update s.task k .panicked }

inductive Step (s : Sys) (a : Label) (s' : Sys) : Prop
  | owner (h : OwnerStep s a s')
  | thread (h : ThreadStep s a s')
  | task (k : ℕ) (h : TaskStep k s a s')

end CorustHackathon.BasicTaskManager
