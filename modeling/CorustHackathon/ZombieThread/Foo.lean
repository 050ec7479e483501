import CorustHackathon.Condvar
import CorustHackathon.Locks
import CorustHackathon.Runs

/-! # A background thread that waits to be stopped

`Foo` of `find_zombie_thread_with_loom/src/lib.rs` in its default build: `Foo::new` spawns a thread
that waits on a `Condvar` until the flag in a `Mutex<bool>` is set, and `Drop` sets the flag and
notifies.  Every place where the thread or the drop can be overtaken by the other one is a state of
its own; the mutex is a lock that is taken for writing only. -/

namespace CorustHackathon.ZombieThread

inductive Party where
  | thread
  | dropper
deriving DecidableEq, Repr

/-- The place of the background thread. -/
inductive Thread where
  /-- `state.lock().unwrap()` -/
  | lock
  /-- Locked: `while !*stop` -/
  | check
  /-- Locked: `cvar.wait(stop)` is called -/
  | wait
  /-- In `cvar.wait`, without the lock -/
  | waiting
  /-- In `cvar.wait`, awake: the lock is taken again -/
  | relock
  /-- Locked: `// do something else` -/
  | body
  /-- Locked: the loop is left, the guard is about to be dropped -/
  | left
  | ended
deriving DecidableEq, Repr

/-- The place of `Drop for Foo`. -/
inductive Dropping where
  | alive
  /-- `state.lock().unwrap()` -/
  | lock
  /-- Locked: `*stop = true` -/
  | setStop
  /-- Locked: `cvar.notify_one()` -/
  | notify
  /-- Locked: the guard is about to be dropped -/
  | unlock
  | returned
deriving DecidableEq, Repr

/-- The guard of the mutex is held. -/
def Thread.locked : Thread → Bool
  | check | wait | body | left => true
  | _ => false

def Dropping.locked : Dropping → Bool
  | setStop | notify | unlock => true
  | _ => false

/-- The flag has been set. -/
def Dropping.hasSet : Dropping → Bool
  | notify | unlock | returned => true
  | _ => false

/-- `Shared`, with the thread and the `Foo` that share it. -/
structure Sys where
  mutex : RwLock Party
  stop : Bool
  cvar : Condvar Party
  thread : Thread
  dropping : Dropping

/-- After `Foo::new`. -/
def init : Sys where
  mutex := .free
  stop := false
  cvar := .empty
  thread := .lock
  dropping := .alive

inductive Label where
  | lock
  | again
  | leave
  | wait
  | notified
  | spurious
  | relock
  | body
  | exit
  | drop
  | dropLock
  | setStop
  | notifyOne
  | dropReturn
deriving DecidableEq, Repr

/-- The steps of the background thread. -/
inductive ThreadStep (s : Sys) : Label → Sys → Prop
  | lock : s.thread = .lock → s.mutex = .free →
      ThreadStep s .lock { s with thread := .check, mutex := .writing .thread }
  | again : s.thread = .check → s.stop = false →
      ThreadStep s .again { s with thread := .wait }
  | leave : s.thread = .check → s.stop = true →
      ThreadStep s .leave { s with thread := .left }
  -- the mutex is released and the wait set entered in one step
  | wait : s.thread = .wait →
      ThreadStep s .wait
        { s with thread := .waiting, mutex := .free, cvar := s.cvar.enter .thread }
  | notified : s.thread = .waiting → .thread ∈ s.cvar.notified →
      ThreadStep s .notified { s with thread := .relock, cvar := s.cvar.goOn .thread }
  | spurious : s.thread = .waiting →
      ThreadStep s .spurious { s with thread := .relock, cvar := s.cvar.goOn .thread }
  | relock : s.thread = .relock → s.mutex = .free →
      ThreadStep s .relock { s with thread := .body, mutex := .writing .thread }
  | body : s.thread = .body →
      ThreadStep s .body { s with thread := .check }
  | exit : s.thread = .left →
      ThreadStep s .exit { s with thread := .ended, mutex := .free }

/-- The steps of `Drop for Foo`. -/
inductive DropStep (s : Sys) : Label → Sys → Prop
  | drop : s.dropping = .alive → DropStep s .drop { s with dropping := .lock }
  | dropLock : s.dropping = .lock → s.mutex = .free →
      DropStep s .dropLock { s with dropping := .setStop, mutex := .writing .dropper }
  | setStop : s.dropping = .setStop →
      DropStep s .setStop { s with dropping := .notify, stop := true }
  | notifyOne {c : Condvar Party} : s.dropping = .notify → s.cvar.NotifyOne c →
      DropStep s .notifyOne { s with dropping := .unlock, cvar := c }
  | dropReturn : s.dropping = .unlock →
      DropStep s .dropReturn { s with dropping := .returned, mutex := .free }

inductive Step (s : Sys) (a : Label) (s' : Sys) : Prop
  | thread : ThreadStep s a s' → Step s a s'
  | drop : DropStep s a s' → Step s a s'

end CorustHackathon.ZombieThread
