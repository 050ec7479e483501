import CorustHackathon.Runs
import CorustHackathon.TaskManager.State

/-! # The task manager: steps

One constructor for each step of the source, grouped by who takes it: `CallStep` is
`spawn_task` and `cancel`, `FutStep` the body of `Task::into_future`, `BackgroundStep` the thread
of `TaskManager::new`, `DropStep` the `Drop` of the manager.  `OwnStep` is a step of the manager,
and `Step` adds the draws that other managers make from the shared `KEY`.

A guard that is a temporary of an `if` condition, of a `let ... else` or of an expression
statement is dropped with the statement that locked, so the step that does the work of such a
section also unlocks.  The guard of `if let Some(context) = self.tasks.ongoing.read().get(k)`
lives to the end of the `if let`, which is the end of `cancel`. -/

namespace CorustHackathon.TaskManager

open Function (update)

/-- What a step does, for the history. -/
inductive Label where
  | callSpawn (c : ℕ)
  | fetchAdd (c d : ℕ)
  | lockInsert (c d : ℕ)
  | insert (c d : ℕ)
  /-- `spawn_task` returns `Ok` with the key of draw `d`. -/
  | spawnOk (c d : ℕ)
  | spawnErr (c d : ℕ)
  | callCancel (c k : ℕ)
  | lockRemove (c k : ℕ)
  /-- `cancel(k)` removes the task `b` from `waiting` and returns. -/
  | removed (c k b : ℕ)
  | notWaiting (c k : ℕ)
  | readOngoing (c k : ℕ)
  /-- `cancel(k)` cancels the token `tok` found in `ongoing` and returns. -/
  | signalled (c k tok : ℕ)
  /-- `cancel(k)` found `k` in neither collection and returns. -/
  | notFound (c k : ℕ)
  | acquire (t : ℕ)
  | lockOngoing (t : ℕ)
  | lockWaiting (t : ℕ)
  /-- Future `t` takes the task `b` out of `waiting`. -/
  | take (t b : ℕ)
  /-- Future `t` finds no task in `waiting`. -/
  | miss (t : ℕ)
  | elseReturn (t : ℕ)
  /-- Future `t` inserts its context into `ongoing`. -/
  | enter (t b : ℕ)
  /-- The guard of the `select!` is evaluated and `task.run(&context)` is called. -/
  | select (t b : ℕ)
  | passBegin (t b : ℕ)
  | pollRun (t b : ℕ)
  | skipRun (t b : ℕ)
  | runPending (t b : ℕ)
  | runOk (t b : ℕ)
  /-- `run` returns `Err`; `on_err` is called. -/
  | runErr (t b : ℕ)
  | tokenPending (t b : ℕ)
  /-- The token is cancelled; the future of `run` is dropped and `on_cancel` is called. -/
  | tokenCancelled (t b : ℕ)
  | passEnd (t b : ℕ)
  | onErrPending (t b : ℕ)
  | onErrReturn (t b : ℕ)
  | onCancelPending (t b : ℕ)
  | onCancelReturn (t b : ℕ)
  | panic (t b : ℕ)
  | lockEnd (t b : ℕ)
  /-- Future `t` removes its key from `ongoing`. -/
  | leave (t b : ℕ)
  | release (t : ℕ)
  | built
  | buildPanic
  | receive (t : ℕ)
  | joinNext (t : ℕ)
  | closed
  | joinAll (t : ℕ)
  | exit
  | dropBegin
  | dropLockWaiting
  /-- `Drop` drains `waiting`, which held `w`. -/
  | drain (w : TaskMap)
  | dropLockOngoing
  | cancelAll
  | takeTx
  | joinOk
  | joinErr
  /-- Another manager draws a key. -/
  | other
deriving DecidableEq

/-- The steps of thread `c` in `spawn_task` and `cancel`. -/
inductive CallStep (c : ℕ) (s : Sys) : Label → Sys → Prop
  -- a `&self` call needs a manager that is not being dropped
  | callSpawn : s.dropping = .alive → s.call c = .idle →
      CallStep c s (.callSpawn c) { s with call := update s.call c .fetchAdd }
  | fetchAdd : s.call c = .fetchAdd →
      CallStep c s (.fetchAdd c s.KEY)
        { s with call := update s.call c (.lockInsert s.KEY), KEY := s.KEY + 1 }
  | lockInsert {d : ℕ} : s.call c = .lockInsert d → s.waitingLock = .free →
      CallStep c s (.lockInsert c d)
        { s with call := update s.call c (.insert d), waitingLock := .writing (.caller c) }
  | insert {d : ℕ} : s.call c = .insert d →
      CallStep c s (.insert c d)
        { s with
          call := update s.call c (.send d)
          waiting := s.waiting.insert (keyOf d) d
          waitingLock := .free }
  | spawnOk {d : ℕ} : s.call c = .send d → s.background.receiving = true →
      CallStep c s (.spawnOk c d)
        { s with call := update s.call c .idle, chan := s.chan ++ [d] }
  | spawnErr {d : ℕ} : s.call c = .send d → s.background.receiving = false →
      CallStep c s (.spawnErr c d) { s with call := update s.call c .idle }
  | callCancel {k : ℕ} : s.dropping = .alive → s.call c = .idle →
      CallStep c s (.callCancel c k) { s with call := update s.call c (.lockRemove k) }
  | lockRemove {k : ℕ} : s.call c = .lockRemove k → s.waitingLock = .free →
      CallStep c s (.lockRemove c k)
        { s with call := update s.call c (.remove k), waitingLock := .writing (.caller c) }
  | removed {k b : ℕ} : s.call c = .remove k → s.waiting.lookup k = some b →
      CallStep c s (.removed c k b)
        { s with
          call := update s.call c .idle
          waiting := s.waiting.erase k
          waitingLock := .free }
  | notWaiting {k : ℕ} : s.call c = .remove k → s.waiting.lookup k = none →
      CallStep c s (.notWaiting c k)
        { s with call := update s.call c (.readOngoing k), waitingLock := .free }
  | readOngoing {k : ℕ} {ps : Finset Party} :
      s.call c = .readOngoing k → s.ongoingLock = .reading ps →
      CallStep c s (.readOngoing c k)
        { s with
          call := update s.call c (.get k)
          ongoingLock := s.ongoingLock.read (.caller c) }
  | signalled {k tok : ℕ} : s.call c = .get k → s.ongoing.lookup k = some tok →
      CallStep c s (.signalled c k tok)
        { s with
          call := update s.call c .idle
          cancelled := update s.cancelled tok true
          ongoingLock := s.ongoingLock.unread (.caller c) }
  | notFound {k : ℕ} : s.call c = .get k → s.ongoing.lookup k = none →
      CallStep c s (.notFound c k)
        { s with call := update s.call c .idle, ongoingLock := s.ongoingLock.unread (.caller c) }

/-- The steps of the future of the `Task` sent by draw `t`. -/
inductive FutStep (t : ℕ) (s : Sys) : Label → Sys → Prop
  | acquire : s.fut t = .acquire → 0 < s.permits →
      FutStep t s (.acquire t)
        { s with fut := update s.fut t .lockOngoing, permits := s.permits - 1 }
  | lockOngoing : s.fut t = .lockOngoing → s.ongoingLock = .free →
      FutStep t s (.lockOngoing t)
        { s with fut := update s.fut t .lockWaiting, ongoingLock := .writing (.future t) }
  | lockWaiting : s.fut t = .lockWaiting → s.waitingLock = .free →
      FutStep t s (.lockWaiting t)
        { s with fut := update s.fut t .remove, waitingLock := .writing (.future t) }
  | take {b : ℕ} : s.fut t = .remove → s.waiting.lookup (keyOf t) = some b →
      FutStep t s (.take t b)
        { s with
          fut := update s.fut t (.insert b)
          waiting := s.waiting.erase (keyOf t)
          waitingLock := .free }
  | miss : s.fut t = .remove → s.waiting.lookup (keyOf t) = none →
      FutStep t s (.miss t)
        { s with fut := update s.fut t .elseReturn, waitingLock := .free }
  | elseReturn : s.fut t = .elseReturn →
      FutStep t s (.elseReturn t)
        { s with fut := update s.fut t (.drop .missed), ongoingLock := .free }
  -- the token of the context is created here and named `t`
  | enter {b : ℕ} : s.fut t = .insert b →
      FutStep t s (.enter t b)
        { s with
          fut := update s.fut t (.select b)
          ongoing := s.ongoing.insertContext ⟨keyOf t, t⟩
          ongoingLock := .free }
  -- the guard is evaluated once; `task.run(&context)` is evaluated also when it is false
  | select {b : ℕ} : s.fut t = .select b →
      FutStep t s (.select t b) { s with fut := update s.fut t (.between b (!s.cancelled t)) }
  -- without `biased` a pass starts with a random branch
  | passBegin {b : ℕ} {en : Bool} {order : List Branch} : s.fut t = .between b en →
      order.Perm [.run, .cancelled] →
      FutStep t s (.passBegin t b) { s with fut := update s.fut t (.pass b en order) }
  | pollRun {b : ℕ} {todo : List Branch} : s.fut t = .pass b true (.run :: todo) →
      FutStep t s (.pollRun t b) { s with fut := update s.fut t (.polling b todo) }
  | skipRun {b : ℕ} {todo : List Branch} : s.fut t = .pass b false (.run :: todo) →
      FutStep t s (.skipRun t b) { s with fut := update s.fut t (.pass b false todo) }
  | runPending {b : ℕ} {todo : List Branch} : s.fut t = .polling b todo →
      FutStep t s (.runPending t b) { s with fut := update s.fut t (.pass b true todo) }
  | runOk {b : ℕ} {todo : List Branch} : s.fut t = .polling b todo →
      FutStep t s (.runOk t b) { s with fut := update s.fut t (.lockRemove b) }
  | runErr {b : ℕ} {todo : List Branch} : s.fut t = .polling b todo →
      FutStep t s (.runErr t b) { s with fut := update s.fut t (.onErr b) }
  | tokenPending {b : ℕ} {en : Bool} {todo : List Branch} :
      s.fut t = .pass b en (.cancelled :: todo) → s.cancelled t = false →
      FutStep t s (.tokenPending t b) { s with fut := update s.fut t (.pass b en todo) }
  | tokenCancelled {b : ℕ} {en : Bool} {todo : List Branch} :
      s.fut t = .pass b en (.cancelled :: todo) → s.cancelled t = true →
      FutStep t s (.tokenCancelled t b) { s with fut := update s.fut t (.onCancel b) }
  | passEnd {b : ℕ} {en : Bool} : s.fut t = .pass b en [] →
      FutStep t s (.passEnd t b) { s with fut := update s.fut t (.between b en) }
  -- `on_err` and `on_cancel` are awaited: they may be pending at any number of polls
  | onErrPending {b : ℕ} : s.fut t = .onErr b →
      FutStep t s (.onErrPending t b) { s with fut := update s.fut t (.onErr b) }
  | onErrReturn {b : ℕ} : s.fut t = .onErr b →
      FutStep t s (.onErrReturn t b) { s with fut := update s.fut t (.lockRemove b) }
  | onCancelPending {b : ℕ} : s.fut t = .onCancel b →
      FutStep t s (.onCancelPending t b) { s with fut := update s.fut t (.onCancel b) }
  | onCancelReturn {b : ℕ} : s.fut t = .onCancel b →
      FutStep t s (.onCancelReturn t b) { s with fut := update s.fut t (.lockRemove b) }
  -- unwinding drops `_permit`, and nothing else that others can see
  | panic {b : ℕ} : (s.fut t).inCallback = true → (s.fut t).box = some b →
      FutStep t s (.panic t b) { s with fut := update s.fut t (.drop (.panicked b)) }
  | lockEnd {b : ℕ} : s.fut t = .lockRemove b → s.ongoingLock = .free →
      FutStep t s (.lockEnd t b)
        { s with fut := update s.fut t (.removeOngoing b), ongoingLock := .writing (.future t) }
  | leave {b : ℕ} : s.fut t = .removeOngoing b →
      FutStep t s (.leave t b)
        { s with
          fut := update s.fut t (.drop (.finished b))
          ongoing := s.ongoing.erase (keyOf t)
          ongoingLock := .free }
  | release {e : Ending} : s.fut t = .drop e →
      FutStep t s (.release t)
        { s with fut := update s.fut t (.done e), permits := s.permits + 1 }

/-- The steps of the background thread. -/
inductive BackgroundStep (s : Sys) : Label → Sys → Prop
  | built : s.background = .build → BackgroundStep s .built { s with background := .recv }
  -- the closure unwinds and drops `rx`, with what is in the channel
  | buildPanic : s.background = .build →
      BackgroundStep s .buildPanic { s with background := .panicked, chan := [] }
  | receive {t : ℕ} {rest : List ℕ} : s.background = .recv → s.chan = t :: rest →
      BackgroundStep s (.receive t)
        { s with
          chan := rest
          fut := update s.fut t .acquire
          js := t :: s.js
          background := if s.js.length + 1 > 1024 then .joinNext else .recv }
  | joinNext {t : ℕ} : s.background = .joinNext → t ∈ s.js → (s.fut t).ended = true →
      BackgroundStep s (.joinNext t) { s with js := s.js.erase t, background := .recv }
  -- `recv` returns `None` when the channel is empty and the sender is gone
  | closed : s.background = .recv → s.chan = [] → s.tx = false →
      BackgroundStep s .closed { s with background := .joinAll }
  | joinAll {t : ℕ} : s.background = .joinAll → t ∈ s.js → (s.fut t).ended = true →
      BackgroundStep s (.joinAll t) { s with js := s.js.erase t }
  | exit : s.background = .joinAll → s.js = [] →
      BackgroundStep s .exit { s with background := .exited }

/-- The steps of `Drop for TaskManager`. -/
inductive DropStep (s : Sys) : Label → Sys → Prop
  -- `&mut self`: no call of `spawn_task` or `cancel` is in progress
  | dropBegin : s.dropping = .alive → (∀ c, s.call c = .idle) →
      DropStep s .dropBegin { s with dropping := .lockWaiting }
  | dropLockWaiting : s.dropping = .lockWaiting → s.waitingLock = .free →
      DropStep s .dropLockWaiting { s with dropping := .drain, waitingLock := .writing .dropper }
  | drain : s.dropping = .drain →
      DropStep s (.drain s.waiting)
        { s with dropping := .lockOngoing, waiting := ∅, waitingLock := .free }
  | dropLockOngoing : s.dropping = .lockOngoing → s.ongoingLock = .free →
      DropStep s .dropLockOngoing
        { s with dropping := .cancelAll, ongoingLock := .writing .dropper }
  | cancelAll : s.dropping = .cancelAll →
      DropStep s .cancelAll
        { s with
          dropping := .takeTx
          cancelled := fun tok => s.cancelled tok || decide (s.ongoing.HasToken tok)
          ongoingLock := .free }
  | takeTx : s.dropping = .takeTx →
      DropStep s .takeTx { s with dropping := .join, tx := false }
  | joinOk : s.dropping = .join → s.background = .exited →
      DropStep s .joinOk { s with dropping := .returned }
  -- the second `unwrap` panics with the panic of the thread
  | joinErr : s.dropping = .join → s.background = .panicked →
      DropStep s .joinErr { s with dropping := .panicked }

/-- The steps of a manager. -/
inductive OwnStep (s : Sys) (a : Label) (s' : Sys) : Prop
  | call (c : ℕ) (h : CallStep c s a s')
  | fut (t : ℕ) (h : FutStep t s a s')
  | background (h : BackgroundStep s a s')
  | drop (h : DropStep s a s')

/-- The steps of a process, as one of its managers sees them. -/
inductive Step (s : Sys) : Label → Sys → Prop
  | own {a : Label} {s' : Sys} (h : OwnStep s a s') : Step s a s'
  | other : Step s .other { s with KEY := s.KEY + 1 }

namespace Step

variable {s s' : Sys} {a : Label}

theorem call {c : ℕ} (h : CallStep c s a s') : Step s a s' := .own (.call c h)

theorem fut {t : ℕ} (h : FutStep t s a s') : Step s a s' := .own (.fut t h)

theorem background (h : BackgroundStep s a s') : Step s a s' := .own (.background h)

theorem drop (h : DropStep s a s') : Step s a s' := .own (.drop h)

end Step

/-! ### What a step leaves alone -/

/-- A step of a future moves this future only, which is spawned and has not ended. -/
structure FutFrame (t : ℕ) (s s' : Sys) : Prop where
  others : ∀ u, u ≠ t → s'.fut u = s.fut u
  spawned : s.fut t ≠ .unspawned
  spawned' : s'.fut t ≠ .unspawned
  live : (s.fut t).ended = false
  call : s'.call = s.call
  chan : s'.chan = s.chan
  js : s'.js = s.js
  tx : s'.tx = s.tx
  background : s'.background = s.background
  dropping : s'.dropping = s.dropping
  cancelled : s'.cancelled = s.cancelled
  KEY : s'.KEY = s.KEY

theorem Fut.spawned_of_inCallback {f : Fut} (h : f.inCallback = true) :
    f ≠ .unspawned ∧ f.ended = false := by
  cases f <;> simp_all [Fut.inCallback, Fut.ended]

theorem FutStep.frame {t : ℕ} {s s' : Sys} {a : Label} (h : FutStep t s a s') :
    FutFrame t s s' := by
  cases h with
  | panic h hb =>
      obtain ⟨h₁, h₂⟩ := Fut.spawned_of_inCallback h
      exact ⟨fun u hu => by simp [hu], h₁, by simp, h₂, rfl, rfl, rfl, rfl, rfl, rfl, rfl, rfl⟩
  | acquire h | lockOngoing h | lockWaiting h | take h | miss h | elseReturn h | enter h | select h
  | passBegin h | pollRun h | skipRun h | runPending h | runOk h | runErr h | tokenPending h
  | tokenCancelled h | passEnd h | onErrPending h | onErrReturn h | onCancelPending h
  | onCancelReturn h | lockEnd h | leave h | release h =>
      exact ⟨fun u hu => by simp [hu], by simp [h], by simp, by simp [h, Fut.ended], rfl, rfl, rfl,
        rfl, rfl, rfl, rfl, rfl⟩

/-- A step of a caller moves this caller only. -/
structure CallFrame (c : ℕ) (s s' : Sys) : Prop where
  others : ∀ u, u ≠ c → s'.call u = s.call u
  fut : s'.fut = s.fut
  js : s'.js = s.js
  tx : s'.tx = s.tx
  permits : s'.permits = s.permits
  ongoing : s'.ongoing = s.ongoing
  background : s'.background = s.background
  dropping : s'.dropping = s.dropping
  KEY : s.KEY ≤ s'.KEY

theorem CallStep.frame {c : ℕ} {s s' : Sys} {a : Label} (h : CallStep c s a s') :
    CallFrame c s s' := by
  cases h <;> exact ⟨fun u hu => by simp [hu], rfl, rfl, rfl, rfl, rfl, rfl, rfl, by simp⟩

/-- A step of the background thread touches none of the shared collections. -/
structure BackgroundFrame (s s' : Sys) : Prop where
  call : s'.call = s.call
  permits : s'.permits = s.permits
  waiting : s'.waiting = s.waiting
  waitingLock : s'.waitingLock = s.waitingLock
  ongoing : s'.ongoing = s.ongoing
  ongoingLock : s'.ongoingLock = s.ongoingLock
  cancelled : s'.cancelled = s.cancelled
  tx : s'.tx = s.tx
  dropping : s'.dropping = s.dropping
  KEY : s'.KEY = s.KEY

theorem BackgroundStep.frame {s s' : Sys} {a : Label} (h : BackgroundStep s a s') :
    BackgroundFrame s s' := by
  cases h <;> exact ⟨rfl, rfl, rfl, rfl, rfl, rfl, rfl, rfl, rfl, rfl⟩

/-- A step of `Drop` moves no future and no caller. -/
structure DropFrame (s s' : Sys) : Prop where
  call : s'.call = s.call
  fut : s'.fut = s.fut
  chan : s'.chan = s.chan
  js : s'.js = s.js
  permits : s'.permits = s.permits
  ongoing : s'.ongoing = s.ongoing
  background : s'.background = s.background
  KEY : s'.KEY = s.KEY

theorem DropStep.frame {s s' : Sys} {a : Label} (h : DropStep s a s') : DropFrame s s' := by
  cases h <;> exact ⟨rfl, rfl, rfl, rfl, rfl, rfl, rfl, rfl⟩

theorem Step.KEY_le {s s' : Sys} {a : Label} (h : Step s a s') : s.KEY ≤ s'.KEY := by
  cases h with
  | other => simp
  | own h =>
      cases h with
      | call c h => exact h.frame.KEY
      | fut t h => exact h.frame.KEY.ge
      | background h => exact h.frame.KEY.ge
      | drop h => exact h.frame.KEY.ge

/-! ### Histories -/

/-- Who takes a step; a draw of another manager is nobody's. -/
def Label.actor : Label → Option Party
  | .callSpawn c | .fetchAdd c _ | .lockInsert c _ | .insert c _ | .spawnOk c _ | .spawnErr c _
  | .callCancel c _ | .lockRemove c _ | .removed c _ _ | .notWaiting c _ | .readOngoing c _
  | .signalled c _ _ | .notFound c _ => some (.caller c)
  | .acquire t | .lockOngoing t | .lockWaiting t | .take t _ | .miss t | .elseReturn t | .enter t _
  | .select t _ | .passBegin t _ | .pollRun t _ | .skipRun t _ | .runPending t _ | .runOk t _
  | .runErr t _ | .tokenPending t _ | .tokenCancelled t _ | .passEnd t _ | .onErrPending t _
  | .onErrReturn t _ | .onCancelPending t _ | .onCancelReturn t _ | .panic t _ | .lockEnd t _
  | .leave t _ | .release t => some (.future t)
  | .built | .buildPanic | .receive _ | .joinNext _ | .closed | .joinAll _ | .exit =>
      some .background
  | .dropBegin | .dropLockWaiting | .drain _ | .dropLockOngoing | .cancelAll | .takeTx | .joinOk
  | .joinErr => some .dropper
  | .other => none

section actor

variable {s s' : Sys} {a : Label} {c t : ℕ}

theorem CallStep.actor (h : CallStep c s a s') : a.actor = some (.caller c) := by
  cases h <;> rfl

theorem FutStep.actor (h : FutStep t s a s') : a.actor = some (.future t) := by
  cases h <;> rfl

theorem BackgroundStep.actor (h : BackgroundStep s a s') : a.actor = some .background := by
  cases h <;> rfl

theorem DropStep.actor (h : DropStep s a s') : a.actor = some .dropper := by
  cases h <;> rfl

/-- The label of a step says whose it is. -/
theorem Step.callStep (h : Step s a s') (ha : a.actor = some (.caller c)) : CallStep c s a s' := by
  cases h with
  | other => cases ha
  | own h =>
      cases h with
      | call c' h => rw [h.actor] at ha; cases ha; exact h
      | fut u h => rw [h.actor] at ha; cases ha
      | background h => rw [h.actor] at ha; cases ha
      | drop h => rw [h.actor] at ha; cases ha

theorem Step.futStep (h : Step s a s') (ha : a.actor = some (.future t)) : FutStep t s a s' := by
  cases h with
  | other => cases ha
  | own h =>
      cases h with
      | call c h => rw [h.actor] at ha; cases ha
      | fut u h => rw [h.actor] at ha; cases ha; exact h
      | background h => rw [h.actor] at ha; cases ha
      | drop h => rw [h.actor] at ha; cases ha

theorem Step.backgroundStep (h : Step s a s') (ha : a.actor = some .background) :
    BackgroundStep s a s' := by
  cases h with
  | other => cases ha
  | own h =>
      cases h with
      | call c h => rw [h.actor] at ha; cases ha
      | fut u h => rw [h.actor] at ha; cases ha
      | background h => exact h
      | drop h => rw [h.actor] at ha; cases ha

theorem Step.dropStep (h : Step s a s') (ha : a.actor = some .dropper) : DropStep s a s' := by
  cases h with
  | other => cases ha
  | own h =>
      cases h with
      | call c h => rw [h.actor] at ha; cases ha
      | fut u h => rw [h.actor] at ha; cases ha
      | background h => rw [h.actor] at ha; cases ha
      | drop h => exact h

/-- A thread stays where it is in its call, or the step is its own. -/
theorem Step.call_cases (h : Step s a s') (c : ℕ) :
    s'.call c = s.call c ∨ CallStep c s a s' := by
  cases h with
  | other => exact .inl rfl
  | own h =>
      cases h with
      | call c' h =>
          by_cases hc : c = c'
          · exact .inr (hc ▸ h)
          · exact .inl (h.frame.others c hc)
      | fut t h => exact .inl (congrFun h.frame.call c)
      | background h => exact .inl (congrFun h.frame.call c)
      | drop h => exact .inl (congrFun h.frame.call c)

end actor

/-- A call of `cancel(k)` by thread `c` returns. -/
def Label.cancelReturns (a : Label) (c k : ℕ) : Prop :=
  (∃ b, a = .removed c k b) ∨ (∃ tok, a = .signalled c k tok) ∨ a = .notFound c k

theorem Label.actor_of_returns {a : Label} {c k : ℕ} (ha : a.cancelReturns c k) :
    a.actor = some (.caller c) := by
  rcases ha with ⟨_, rfl⟩ | ⟨_, rfl⟩ | rfl <;> rfl

/-- The boxed task `b` is removed from `waiting` by a `cancel`, or by the `Drop` of the manager. -/
def Label.discards (b : ℕ) : Label → Prop
  | .removed _ _ b' => b' = b
  | .drain w => w.lookup (keyOf b) = some b
  | _ => False

/-- The callbacks made on a task, and what became of `run`. -/
inductive Callback where
  /-- `run` is called, its future is created. -/
  | run
  /-- A poll of `run` is pending. -/
  | pending
  /-- A poll of `run` returns `Ok`. -/
  | ok
  /-- A poll of `run` returns `Err`. -/
  | err
  /-- The future of `run` is dropped unfinished. -/
  | dropped
  /-- `on_err` is called. -/
  | onErr
  /-- `on_cancel` is called. -/
  | onCancel
  | panic
deriving DecidableEq, Repr

/-- The callbacks on the boxed task `b` in a step. -/
def Label.callbacks (b : ℕ) : Label → List Callback
  | .select _ b' => if b' = b then [.run] else []
  | .runPending _ b' => if b' = b then [.pending] else []
  | .runOk _ b' => if b' = b then [.ok] else []
  | .runErr _ b' => if b' = b then [.err, .onErr] else []
  | .tokenCancelled _ b' => if b' = b then [.dropped, .onCancel] else []
  | .panic _ b' => if b' = b then [.panic] else []
  | _ => []

/-- Only futures make callbacks. -/
theorem Label.callbacks_of_actor {a : Label} (h : ∀ t, a.actor ≠ some (.future t)) (b : ℕ) :
    a.callbacks b = [] := by
  cases a <;> first | rfl | exact absurd rfl (h _)

/-- The callbacks on the boxed task `b` in a run. -/
def callbacks (tr : List Label) (b : ℕ) : List Callback := tr.flatMap (Label.callbacks b)

@[simp] theorem callbacks_append (tr tr' : List Label) (b : ℕ) :
    callbacks (tr ++ tr') b = callbacks tr b ++ callbacks tr' b := by
  simp [callbacks]

@[simp] theorem callbacks_singleton (a : Label) (b : ℕ) : callbacks [a] b = a.callbacks b := by
  simp [callbacks]

end CorustHackathon.TaskManager
