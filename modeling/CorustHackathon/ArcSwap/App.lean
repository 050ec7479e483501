import CorustHackathon.Arcs
import CorustHackathon.Locks
import CorustHackathon.Runs

/-! # A shared configuration

`App1` and `App2` of `arc_swap_usage/src/lib.rs` share a `String` between threads that read it
(`handle`) and calls that replace it (`update_config`).  `App1` keeps an `Arc<String>` behind an
`RwLock`, and a reader has to go through four steps for its `Arc::clone`, in which the pointer that
it has read must not be freed.  `App2` hands both ends to an `ArcSwap`, whose `load_full` and
`store` are one step each; the strings that it gives out are never changed, so that a handler of
`App2` has the string where one of `App1` has a pointer into the heap.

`update_config` evaluates `Arc::new(new.as_ref().to_string())`, which runs code of the caller and
may panic, before it comes to the lock. -/

namespace CorustHackathon.ArcSwap

open Function (update)

/-- What can be seen of an app from outside. -/
inductive Event where
  /-- `handle(data)` has spawned the thread `h`. -/
  | handle (h data : ℕ)
  | println (h data : ℕ) (content : String)
  /-- `println!` panics. -/
  | printFails (h : ℕ)
  /-- The thread `u` calls `update_config`. -/
  | update (u : ℕ)
  | asRef (u : ℕ) (new : String)
  | asRefPanics (u : ℕ)
  | returns (u : ℕ)
deriving DecidableEq, Repr

/-! ### A lock around an `Arc` -/

namespace App1

/-- A thread of `handle`. -/
inductive Handler where
  | unspawned
  /-- `config.read()` -/
  | read (data : ℕ)
  /-- Read-locked: `.clone()` reads the pointer -/
  | deref (data : ℕ)
  /-- Read-locked: `.clone()` increments the count -/
  | increment (data p : ℕ)
  /-- The guard is about to be dropped -/
  | unread (data p : ℕ)
  /-- `println!` -/
  | print (data p : ℕ)
  /-- `content` is about to be dropped -/
  | drop (p : ℕ)
  | done
deriving DecidableEq, Repr

/-- A thread's place in `update_config`; it is `idle` outside of it. -/
inductive Updater where
  | idle
  /-- `Arc::new(new.as_ref().to_string())` -/
  | asRef
  /-- `self.config.write()` -/
  | write (p : ℕ)
  /-- Write-locked: the assignment drops the old value -/
  | dropOld (p : ℕ)
  /-- Write-locked: the assignment moves the new one in -/
  | assign (p : ℕ)
  /-- The guard is about to be dropped -/
  | unwrite
  | returning
deriving DecidableEq, Repr

inductive Party where
  | handler (h : ℕ)
  | updater (u : ℕ)
deriving DecidableEq, Repr

/-- An `App1`, with the threads that use it. -/
structure Sys where
  arcs : Arcs String
  lock : RwLock Party
  /-- The pointer behind the lock; `none` between the two halves of an assignment. -/
  config : Option ℕ
  handler : ℕ → Handler
  updater : ℕ → Updater

/-- `App1::default()` -/
def init : Sys where
  arcs := Arcs.empty.alloc ""
  lock := .free
  config := some 0
  handler := fun _ => .unspawned
  updater := fun _ => .idle

inductive Label where
  | handle (h data : ℕ)
  | read (h : ℕ)
  | deref (h : ℕ)
  | increment (h : ℕ)
  | unread (h : ℕ)
  | println (h data : ℕ) (content : String)
  | printFails (h : ℕ)
  | dropContent (h : ℕ)
  | update (u : ℕ)
  | asRef (u : ℕ) (new : String)
  | asRefPanics (u : ℕ)
  | write (u : ℕ)
  | dropOld (u : ℕ)
  | assign (u : ℕ)
  | unwrite (u : ℕ)
  | returns (u : ℕ)
deriving DecidableEq, Repr

/-- The steps of a thread of `handle`. -/
inductive HandlerStep (h : ℕ) (s : Sys) : Label → Sys → Prop
  | handle {data : ℕ} : s.handler h = .unspawned →
      HandlerStep h s (.handle h data) { s with handler := update s.handler h (.read data) }
  | read {data : ℕ} {ps : Finset Party} : s.handler h = .read data → s.lock = .reading ps →
      HandlerStep h s (.read h)
        { s with
          handler := update s.handler h (.deref data)
          lock := s.lock.read (.handler h) }
  | deref {data p : ℕ} : s.handler h = .deref data → s.config = some p →
      HandlerStep h s (.deref h) { s with handler := update s.handler h (.increment data p) }
  | increment {data p : ℕ} : s.handler h = .increment data p → s.arcs.get p ≠ none →
      HandlerStep h s (.increment h)
        { s with
          handler := update s.handler h (.unread data p)
          arcs := s.arcs.clone p }
  | unread {data p : ℕ} : s.handler h = .unread data p →
      HandlerStep h s (.unread h)
        { s with
          handler := update s.handler h (.print data p)
          lock := s.lock.unread (.handler h) }
  | println {data p : ℕ} {content : String} : s.handler h = .print data p →
      s.arcs.get p = some content →
      HandlerStep h s (.println h data content) { s with handler := update s.handler h (.drop p) }
  | printFails {data p : ℕ} : s.handler h = .print data p →
      HandlerStep h s (.printFails h) { s with handler := update s.handler h (.drop p) }
  | dropContent {p : ℕ} : s.handler h = .drop p → s.arcs.get p ≠ none →
      HandlerStep h s (.dropContent h)
        { s with
          handler := update s.handler h .done
          arcs := s.arcs.drop p }

/-- The steps of a thread in `update_config`. -/
inductive UpdaterStep (u : ℕ) (s : Sys) : Label → Sys → Prop
  | update : s.updater u = .idle →
      UpdaterStep u s (.update u) { s with updater := update s.updater u .asRef }
  | asRef {new : String} : s.updater u = .asRef →
      UpdaterStep u s (.asRef u new)
        { s with
          updater := update s.updater u (.write s.arcs.next)
          arcs := s.arcs.alloc new }
  -- no guard is out
  | asRefPanics : s.updater u = .asRef →
      UpdaterStep u s (.asRefPanics u) { s with updater := update s.updater u .idle }
  | write {p : ℕ} : s.updater u = .write p → s.lock = .free →
      UpdaterStep u s (.write u)
        { s with
          updater := update s.updater u (.dropOld p)
          lock := .writing (.updater u) }
  | dropOld {p q : ℕ} : s.updater u = .dropOld p → s.config = some q → s.arcs.get q ≠ none →
      UpdaterStep u s (.dropOld u)
        { s with
          updater := update s.updater u (.assign p)
          config := none
          arcs := s.arcs.drop q }
  | assign {p : ℕ} : s.updater u = .assign p →
      UpdaterStep u s (.assign u)
        { s with
          updater := update s.updater u .unwrite
          config := some p }
  | unwrite : s.updater u = .unwrite →
      UpdaterStep u s (.unwrite u)
        { s with
          updater := update s.updater u .returning
          lock := .free }
  | returns : s.updater u = .returning →
      UpdaterStep u s (.returns u) { s with updater := update s.updater u .idle }

inductive Step (s : Sys) (a : Label) (s' : Sys) : Prop
  | handler (h : ℕ) (hs : HandlerStep h s a s')
  | updater (u : ℕ) (hs : UpdaterStep u s a s')

/-- What is seen of a step. -/
def Label.events : Label → List Event
  | .handle h data => [.handle h data]
  | .println h data content => [.println h data content]
  | .printFails h => [.printFails h]
  | .update u => [.update u]
  | .asRef u new => [.asRef u new]
  | .asRefPanics u => [.asRefPanics u]
  | .returns u => [.returns u]
  | _ => []

end App1

/-! ### An `ArcSwap` -/

namespace App2

/-- A thread of `handle`. -/
inductive Handler where
  | unspawned
  /-- `config.load_full()` -/
  | load (data : ℕ)
  /-- `println!` -/
  | print (data : ℕ) (content : String)
  | done
deriving DecidableEq, Repr

/-- A thread's place in `update_config`. -/
inductive Updater where
  | idle
  /-- `Arc::new(new.as_ref().to_string())` -/
  | asRef
  /-- `self.config.store(..)` -/
  | store (new : String)
  | returning
deriving DecidableEq, Repr

/-- An `App2`, with the threads that use it. -/
structure Sys where
  config : String
  handler : ℕ → Handler
  updater : ℕ → Updater

/-- `App2::default()` -/
def init : Sys where
  config := ""
  handler := fun _ => .unspawned
  updater := fun _ => .idle

inductive Label where
  | handle (h data : ℕ)
  | load (h : ℕ)
  | println (h data : ℕ) (content : String)
  | printFails (h : ℕ)
  | update (u : ℕ)
  | asRef (u : ℕ) (new : String)
  | asRefPanics (u : ℕ)
  | store (u : ℕ)
  | returns (u : ℕ)
deriving DecidableEq, Repr

/-- The steps of a thread of `handle`. -/
inductive HandlerStep (h : ℕ) (s : Sys) : Label → Sys → Prop
  | handle {data : ℕ} : s.handler h = .unspawned →
      HandlerStep h s (.handle h data) { s with handler := update s.handler h (.load data) }
  | load {data : ℕ} : s.handler h = .load data →
      HandlerStep h s (.load h) { s with handler := update s.handler h (.print data s.config) }
  | println {data : ℕ} {content : String} : s.handler h = .print data content →
      HandlerStep h s (.println h data content) { s with handler := update s.handler h .done }
  | printFails {data : ℕ} {content : String} : s.handler h = .print data content →
      HandlerStep h s (.printFails h) { s with handler := update s.handler h .done }

/-- The steps of a thread in `update_config`. -/
inductive UpdaterStep (u : ℕ) (s : Sys) : Label → Sys → Prop
  | update : s.updater u = .idle →
      UpdaterStep u s (.update u) { s with updater := update s.updater u .asRef }
  | asRef {new : String} : s.updater u = .asRef →
      UpdaterStep u s (.asRef u new) { s with updater := update s.updater u (.store new) }
  | asRefPanics : s.updater u = .asRef →
      UpdaterStep u s (.asRefPanics u) { s with updater := update s.updater u .idle }
  | store {new : String} : s.updater u = .store new →
      UpdaterStep u s (.store u)
        { s with
          updater := update s.updater u .returning
          config := new }
  | returns : s.updater u = .returning →
      UpdaterStep u s (.returns u) { s with updater := update s.updater u .idle }

inductive Step (s : Sys) (a : Label) (s' : Sys) : Prop
  | handler (h : ℕ) (hs : HandlerStep h s a s')
  | updater (u : ℕ) (hs : UpdaterStep u s a s')

/-- What is seen of a step. -/
def Label.events : Label → List Event
  | .handle h data => [.handle h data]
  | .println h data content => [.println h data content]
  | .printFails h => [.printFails h]
  | .update u => [.update u]
  | .asRef u new => [.asRef u new]
  | .asRefPanics u => [.asRefPanics u]
  | .returns u => [.returns u]
  | .load _ | .store _ => []

end App2

end CorustHackathon.ArcSwap
