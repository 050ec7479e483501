import CorustHackathon.Locks
import CorustHackathon.Runs

/-! # Workers on one channel

`classic` of `limit_the_concurrency_of_async_tasks/src/lib.rs`: a thread with a `LocalPool` on which
`workers` async workers share the receiver of a channel behind a `Mutex`, and a main thread that
sends it the numbers below `items`.  A worker blocks the whole pool in `recv`, with the lock, and
gives the pool back only where a future that it awaits is pending.

* **The awaited task.** The source awaits `ready(())` for every item, which is ready at the first
  poll.  Here the task of the item `j` is pending for `pending j` polls, so that `classic` is the
  system where this is zero.
* **The pool.** `LocalPool::run` polls a worker that has not ended whenever no other one is being
  polled; the order is left open, and so is the time at which a pending task wakes its worker.
* **Panics.** `println!` may panic.  The thread then drops the pool and the receiver, so that `send`
  fails, or `join` does. -/

namespace CorustHackathon.LimitConcurrency

open Function (update)

/-- The place of the main thread. -/
inductive Main where
  /-- `for i in 0..10 { tx.send(i).unwrap(); }` at `i` -/
  | send (i : ℕ)
  /-- `jh.join().unwrap()` -/
  | join
  | returned
  | panicked
deriving DecidableEq, Repr

/-- The place of the spawned thread. -/
inductive Pool where
  /-- `(0..3).for_each(|i| ..)` at `i` -/
  | spawn (i : ℕ)
  /-- `pool.run()`, with the worker that is polled -/
  | run (worker : Option ℕ)
  | returned
  | panicked
deriving DecidableEq, Repr

/-- The place of a worker. -/
inductive Worker where
  | unspawned
  /-- `rx.lock().unwrap()` -/
  | lock
  /-- Locked: `.recv()` -/
  | recv
  /-- `println!("{i} start ..")` -/
  | start (j : ℕ)
  /-- The task of the item is pending for `k` more polls. -/
  | await (j k : ℕ)
  /-- `println!("{i} finish ..")` -/
  | finish (j : ℕ)
  | ended
  /-- The pool has been dropped, and its workers with it. -/
  | dropped
deriving DecidableEq, Repr

/-- The worker has been spawned and has not ended. -/
def Worker.Alive : Worker → Prop
  | unspawned | ended | dropped => False
  | _ => True

structure Sys where
  main : Main
  queue : List ℕ
  /-- The sender has not been dropped. -/
  tx : Bool
  /-- The receiver has not been dropped. -/
  rx : Bool
  mutex : RwLock ℕ
  pool : Pool
  worker : ℕ → Worker

/-- After `thread::spawn`. -/
def init : Sys where
  main := .send 0
  queue := []
  tx := true
  rx := true
  mutex := .free
  pool := .spawn 0
  worker := fun _ => .unspawned

inductive Label where
  | send (i : ℕ)
  | sendFails
  | dropTx
  | join
  | joinFails
  | spawn (w : ℕ)
  | run
  | poll (w : ℕ)
  | returns
  | lock (w : ℕ)
  | recv (w j : ℕ)
  | disconnected (w : ℕ)
  | start (w j : ℕ)
  | pending (w : ℕ)
  | ready (w : ℕ)
  | finish (w j : ℕ)
  | printFails (w : ℕ)
deriving DecidableEq, Repr

/-- The steps of the main thread. -/
inductive MainStep (items : ℕ) (s : Sys) : Label → Sys → Prop
  | send {i : ℕ} : s.main = .send i → i < items → s.rx = true →
      MainStep items s (.send i) { s with main := .send (i + 1), queue := s.queue ++ [i] }
  | sendFails {i : ℕ} : s.main = .send i → i < items → s.rx = false →
      MainStep items s .sendFails { s with main := .panicked, tx := false }
  | dropTx : s.main = .send items →
      MainStep items s .dropTx { s with main := .join, tx := false }
  | join : s.main = .join → s.pool = .returned →
      MainStep items s .join { s with main := .returned }
  | joinFails : s.main = .join → s.pool = .panicked →
      MainStep items s .joinFails { s with main := .panicked }

/-- The steps of the spawned thread outside of the workers. -/
inductive PoolStep (workers : ℕ) (s : Sys) : Label → Sys → Prop
  | spawn {w : ℕ} : s.pool = .spawn w → w < workers →
      PoolStep workers s (.spawn w)
        { s with pool := .spawn (w + 1), worker := update s.worker w .lock }
  | run : s.pool = .spawn workers → PoolStep workers s .run { s with pool := .run none }
  | poll {w : ℕ} : s.pool = .run none → (s.worker w).Alive →
      PoolStep workers s (.poll w) { s with pool := .run (some w) }
  | returns : s.pool = .run none → (∀ w, ¬ (s.worker w).Alive) →
      PoolStep workers s .returns { s with pool := .returned, rx := false }

/-- The steps of the worker `w`, while it is polled. -/
inductive WorkerStep (pending : ℕ → ℕ) (w : ℕ) (s : Sys) : Label → Sys → Prop
  | lock : s.worker w = .lock → s.mutex = .free →
      WorkerStep pending w s (.lock w)
        { s with mutex := .writing w, worker := update s.worker w .recv }
  -- the guard is dropped at the end of the block, before the loop's body
  | recv {j : ℕ} {queue : List ℕ} : s.worker w = .recv → s.queue = j :: queue →
      WorkerStep pending w s (.recv w j)
        { s with queue := queue, mutex := .free, worker := update s.worker w (.start j) }
  | disconnected : s.worker w = .recv → s.queue = [] → s.tx = false →
      WorkerStep pending w s (.disconnected w)
        { s with mutex := .free, pool := .run none, worker := update s.worker w .ended }
  | start {j : ℕ} : s.worker w = .start j →
      WorkerStep pending w s (.start w j)
        { s with worker := update s.worker w (.await j (pending j)) }
  | pending {j k : ℕ} : s.worker w = .await j (k + 1) →
      WorkerStep pending w s (.pending w)
        { s with pool := .run none, worker := update s.worker w (.await j k) }
  | ready {j : ℕ} : s.worker w = .await j 0 →
      WorkerStep pending w s (.ready w) { s with worker := update s.worker w (.finish j) }
  | finish {j : ℕ} : s.worker w = .finish j →
      WorkerStep pending w s (.finish w j) { s with worker := update s.worker w .lock }
  | printFails {j : ℕ} : s.worker w = .start j ∨ s.worker w = .finish j →
      WorkerStep pending w s (.printFails w)
        { s with pool := .panicked, rx := false, worker := fun _ => .dropped }

/-- A system of `workers` workers, to which `items` items are sent. -/
structure Config where
  workers : ℕ
  items : ℕ
  pending : ℕ → ℕ

/-- The system of the source. -/
def classic : Config where
  workers := 3
  items := 10
  pending := fun _ => 0

inductive Step (c : Config) (s : Sys) (a : Label) (s' : Sys) : Prop
  | main (h : MainStep c.items s a s')
  | pool (h : PoolStep c.workers s a s')
  | worker (w : ℕ) (hw : s.pool = .run (some w)) (h : WorkerStep c.pending w s a s')

end CorustHackathon.LimitConcurrency
