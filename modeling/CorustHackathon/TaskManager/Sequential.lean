import CorustHackathon.TaskManager.Step

/-! # Operations that run alone

What `spawn_task`, the start of a future, `cancel` and the end of a future do when no other
party takes a step in between: each is a run with a given trace from a state in which the
locks are free to a state that is written out.  The scenarios of the later modules are put
together from these. -/

namespace CorustHackathon.TaskManager

open Function (update)

theorem RwLock.unread_read_free (p : Party) : ((RwLock.free.read p).unread p) = .free := by
  simp [RwLock.free, RwLock.read, RwLock.unread]

/-- A caller that has come back is where it was. -/
theorem update_idle {f : ℕ → Call} {c : ℕ} (h : f c = .idle) : update f c .idle = f := by
  rw [← h, Function.update_eq_self]

namespace Sys

/-- After `spawn_task` has returned `Ok`. -/
def spawned (s : Sys) : Sys :=
  { s with
    KEY := s.KEY + 1
    waiting := s.waiting.insert (keyOf s.KEY) s.KEY
    waitingLock := .free
    chan := s.chan ++ [s.KEY] }

/-- After the `Task` `t` was received and its future has gone to its `select!` with the boxed
task `b`; `rest` is left in the channel. -/
def started (s : Sys) (t b : ℕ) (rest : List ℕ) : Sys :=
  { s with
    chan := rest
    js := t :: s.js
    background := if s.js.length + 1 > 1024 then .joinNext else .recv
    permits := s.permits - 1
    waiting := s.waiting.erase (keyOf t)
    waitingLock := .free
    ongoing := s.ongoing.insertContext ⟨keyOf t, t⟩
    ongoingLock := .free
    fut := update s.fut t (.between b (!s.cancelled t)) }

end Sys

variable {s : Sys}

/-- The trace of a `spawn_task` by `c` that draws `d`. -/
def spawnTrace (c d : ℕ) : List Label :=
  [.callSpawn c, .fetchAdd c d, .lockInsert c d, .insert c d, .spawnOk c d]

/-- `spawn_task` puts the task into `waiting` and its `Task` into the channel. -/
theorem spawn_run {c : ℕ} (ha : s.dropping = .alive) (hc : s.call c = .idle)
    (hw : s.waitingLock = .free) (hr : s.background.receiving = true) :
    Run Step s (spawnTrace c s.KEY) s.spawned := by
  have h := Run.cons (Step.call (.callSpawn ha hc))
    (Run.cons (Step.call (.fetchAdd (c := c) (by simp)))
    (Run.cons (Step.call (.lockInsert (c := c) (by simp; rfl) (by simpa using hw)))
    (Run.cons (Step.call (.insert (c := c) (by simp; rfl)))
    (Run.single (Step.call (.spawnOk (c := c) (by simp; rfl) (by simpa using hr)))))))
  simpa [spawnTrace, Sys.spawned, update_idle hc] using h

/-- The trace of a future from the receipt of its `Task` to its `select!`. -/
def startTrace (t b : ℕ) : List Label :=
  [.receive t, .acquire t, .lockOngoing t, .lockWaiting t, .take t b, .enter t b, .select t b]

/-- A future that gets a permit and finds its task moves it from `waiting` to `ongoing`. -/
theorem start_run {t b : ℕ} {rest : List ℕ} (hb : s.background = .recv) (hc : s.chan = t :: rest)
    (hp : 0 < s.permits) (hw : s.waitingLock = .free) (ho : s.ongoingLock = .free)
    (hl : s.waiting.lookup (keyOf t) = some b) :
    Run Step s (startTrace t b) (s.started t b rest) := by
  have h := Run.cons (Step.background (.receive hb hc))
    (Run.cons (Step.fut (.acquire (t := t) (by simp) (by simpa using hp)))
    (Run.cons (Step.fut (.lockOngoing (t := t) (by simp) (by simpa using ho)))
    (Run.cons (Step.fut (.lockWaiting (t := t) (by simp) (by simpa using hw)))
    (Run.cons (Step.fut (.take (t := t) (by simp) (by simpa using hl)))
    (Run.cons (Step.fut (.enter (t := t) (by simp; rfl)))
    (Run.single (Step.fut (.select (t := t) (by simp; rfl)))))))))
  simpa [startTrace, Sys.started] using h

/-- The trace of a `cancel(k)` by `c` that finds the token `tok` in `ongoing`. -/
def cancelTrace (c k tok : ℕ) : List Label :=
  [.callCancel c k, .lockRemove c k, .notWaiting c k, .readOngoing c k, .signalled c k tok]

/-- `cancel` of a key in `ongoing` cancels the token that is stored there. -/
theorem cancel_run {c k t : ℕ} (ha : s.dropping = .alive) (hc : s.call c = .idle)
    (hw : s.waitingLock = .free) (ho : s.ongoingLock = .free)
    (hl : s.waiting.lookup k = none) (hk : s.ongoing.lookup k = some t) :
    Run Step s (cancelTrace c k t)
      { s with
        cancelled := update s.cancelled t true
        waitingLock := .free
        ongoingLock := .free } := by
  have h := Run.cons (Step.call (.callCancel (k := k) ha hc))
    (Run.cons (Step.call (.lockRemove (c := c) (by simp; rfl) (by simpa using hw)))
    (Run.cons (Step.call (.notWaiting (c := c) (by simp; rfl) (by simpa using hl)))
    (Run.cons (Step.call (.readOngoing (c := c) (by simp; rfl) ho))
    (Run.single (Step.call (.signalled (c := c) (by simp; rfl) (by simpa using hk)))))))
  simpa [cancelTrace, update_idle hc, ho, RwLock.unread_read_free] using h

/-- After the future `t` with the boxed task `b` has left its `select!` and ended. -/
def Sys.finished (s : Sys) (t b : ℕ) : Sys :=
  { s with
    fut := update s.fut t (.done (.finished b))
    ongoing := s.ongoing.erase (keyOf t)
    ongoingLock := .free
    permits := s.permits + 1 }

/-- The trace of a future whose `run` returns `Ok` at the first poll. -/
def okTrace (t b : ℕ) : List Label :=
  [.passBegin t b, .pollRun t b, .runOk t b, .lockEnd t b, .leave t b, .release t]

/-- A future whose `run` returns removes its context and gives its permit back. -/
theorem ok_run {t b : ℕ} (hf : s.fut t = .between b true) (ho : s.ongoingLock = .free) :
    Run Step s (okTrace t b) (s.finished t b) := by
  have h := Run.cons (Step.fut (.passBegin hf (.refl _)))
    (Run.cons (Step.fut (@FutStep.pollRun t _ b [.cancelled] (by simp)))
    (Run.cons (Step.fut (@FutStep.runOk t _ b [.cancelled] (by simp)))
    (Run.cons (Step.fut (.lockEnd (t := t) (by simp; rfl) (by simpa using ho)))
    (Run.cons (Step.fut (.leave (t := t) (by simp; rfl)))
    (Run.single (Step.fut (.release (t := t) (by simp; rfl))))))))
  simpa [okTrace, Sys.finished] using h

/-- The trace of a future that sees its cancelled token first. -/
def cancelledTrace (t b : ℕ) : List Label :=
  [.passBegin t b, .tokenCancelled t b, .onCancelReturn t b, .lockEnd t b, .leave t b, .release t]

/-- A future whose token is cancelled ends the same way. -/
theorem cancelled_run {t b : ℕ} {en : Bool} (hf : s.fut t = .between b en)
    (hk : s.cancelled t = true) (ho : s.ongoingLock = .free) :
    Run Step s (cancelledTrace t b) (s.finished t b) := by
  have h := Run.cons (Step.fut (.passBegin hf (.swap _ _ _)))
    (Run.cons (Step.fut (@FutStep.tokenCancelled t _ b en [.run] (by simp) (by simpa using hk)))
    (Run.cons (Step.fut (.onCancelReturn (t := t) (by simp; rfl)))
    (Run.cons (Step.fut (.lockEnd (t := t) (by simp; rfl) (by simpa using ho)))
    (Run.cons (Step.fut (.leave (t := t) (by simp; rfl)))
    (Run.single (Step.fut (.release (t := t) (by simp; rfl))))))))
  simpa [cancelledTrace, Sys.finished] using h

/-- The trace of a future whose `run` panics at the first poll. -/
def panicTrace (t b : ℕ) : List Label := [.passBegin t b, .pollRun t b, .panic t b, .release t]

/-- A future that panics gives its permit back and leaves its context where it is. -/
theorem panic_run {t b : ℕ} (hf : s.fut t = .between b true) :
    Run Step s (panicTrace t b)
      { s with fut := update s.fut t (.done (.panicked b)), permits := s.permits + 1 } := by
  have h := Run.cons (Step.fut (.passBegin hf (.refl _)))
    (Run.cons (Step.fut (@FutStep.pollRun t _ b [.cancelled] (by simp)))
    (Run.cons (Step.fut (.panic (t := t) (b := b) (by simp [Fut.inCallback]) (by simp [Fut.box])))
    (Run.single (Step.fut (.release (t := t) (by simp; rfl))))))
  simpa [panicTrace] using h

/-! ### From rest to rest -/

/-- Nobody is in the middle of anything, and the caller `c` may call. -/
structure Sys.Rest (s : Sys) (c : ℕ) : Prop where
  alive : s.dropping = .alive
  idle : s.call c = .idle
  waitingLock : s.waitingLock = .free
  ongoingLock : s.ongoingLock = .free
  recv : s.background = .recv
  chan : s.chan = []

/-- After the runtime was built. -/
def Sys.built (s : Sys) : Sys := { s with background := .recv }

theorem built_run (n KEY : ℕ) : Run Step (init n KEY) [.built] (init n KEY).built :=
  .single (.background (.built rfl))

theorem Sys.Rest.built (n KEY c : ℕ) : (init n KEY).built.Rest c := ⟨rfl, rfl, rfl, rfl, rfl, rfl⟩

/-- After a task was spawned and has gone to its `select!`. -/
def Sys.launched (s : Sys) : Sys := s.spawned.started s.KEY s.KEY []

/-- The trace of a `spawn_task` whose task starts at once. -/
def launchTrace (c d : ℕ) : List Label := spawnTrace c d ++ startTrace d d

theorem launch_run {c : ℕ} (h : s.Rest c) (hp : 0 < s.permits) :
    Run Step s (launchTrace c s.KEY) s.launched := by
  refine (spawn_run h.alive h.idle h.waitingLock (by rw [h.recv]; rfl)).trans
    (start_run h.recv ?_ hp rfl h.ongoingLock ?_)
  · simp [Sys.spawned, h.chan]
  · simp [Sys.spawned]

theorem Sys.Rest.launched {c : ℕ} (h : s.Rest c) (hj : s.js.length + 1 ≤ 1024) :
    s.launched.Rest c :=
  ⟨h.alive, h.idle, rfl, rfl, if_neg (by simpa [Sys.spawned] using hj), rfl⟩

/-- Other managers draw `n` keys. -/
theorem others_run (s : Sys) (n : ℕ) :
    Run Step s (List.replicate n .other) { s with KEY := s.KEY + n } := by
  induction n with
  | zero => exact .nil
  | succ n ih =>
      rw [List.replicate_succ']
      exact ih.snoc .other

theorem Sys.Rest.drawn {c : ℕ} (h : s.Rest c) (k : ℕ) : Sys.Rest { s with KEY := k } c :=
  ⟨h.alive, h.idle, h.waitingLock, h.ongoingLock, h.recv, h.chan⟩

/-! ### Two tasks with one key -/

/-- Two tasks in their `select!` whose draws are `2 ^ 64` apart. -/
def wrapped : Sys := Sys.launched { (init 2 0).built.launched with KEY := usizeSize }

def wrappedTrace : List Label :=
  [.built] ++ launchTrace 0 0 ++ List.replicate (usizeSize - 1) .other ++ launchTrace 0 usizeSize

theorem wrapped_run : Run Step (init 2 0) wrappedTrace wrapped := by
  have hrest := ((Sys.Rest.built 2 0 0).launched (by decide)).drawn usizeSize
  have h₁ := (built_run 2 0).trans (launch_run (.built 2 0 0) Nat.two_pos)
  have h₂ := h₁.trans (others_run _ (usizeSize - 1))
  have hKEY : (init 2 0).built.launched.KEY + (usizeSize - 1) = usizeSize := by decide
  rw [hKEY] at h₂
  exact h₂.trans (launch_run hrest Nat.one_pos)

theorem mem_wrappedTrace {a : Label} (h : a ∈ wrappedTrace) :
    a = .built ∨ a = .other ∨ a ∈ launchTrace 0 0 ∨ a ∈ launchTrace 0 usizeSize := by
  simp only [wrappedTrace, List.mem_append, List.mem_singleton] at h
  rcases h with ((h | h) | h) | h
  · exact .inl h
  · exact .inr (.inr (.inl h))
  · exact .inr (.inl (List.eq_of_mem_replicate h))
  · exact .inr (.inr (.inr h))

/-! ### `Drop` -/

/-- The trace of `Drop` up to the join, after its beginning. -/
def dropTrace (w : TaskMap) : List Label :=
  [.dropLockWaiting, .drain w, .dropLockOngoing, .cancelAll, .takeTx]

/-- `Drop` empties `waiting` and cancels the tokens that are stored in `ongoing`. -/
theorem drop_run (hd : s.dropping = .lockWaiting) (hw : s.waitingLock = .free)
    (ho : s.ongoingLock = .free) :
    Run Step s (dropTrace s.waiting)
      { s with
        dropping := .join
        waiting := ∅
        waitingLock := .free
        cancelled := fun t => s.cancelled t || decide (s.ongoing.HasToken t)
        ongoingLock := .free
        tx := false } := by
  have h := Run.cons (Step.drop (.dropLockWaiting hd hw))
    (Run.cons (Step.drop (.drain rfl))
    (Run.cons (Step.drop (.dropLockOngoing rfl ho))
    (Run.cons (Step.drop (.cancelAll rfl))
    (Run.single (Step.drop (.takeTx rfl))))))
  exact h

end CorustHackathon.TaskManager
