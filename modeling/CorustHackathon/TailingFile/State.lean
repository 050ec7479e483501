import Mathlib.Data.List.Basic
import Mathlib.Data.UInt

/-! # The tailing file: states

The data of `tailing_file/src/created_as_well.rs`: the `TailingFile` with its `MaybeDone`, the
`AtomicWaker` it shares with the watcher, the task that polls it, and what the code rests on: the
calls on the blocking pool of `tokio`, the notify events and the file itself.

* **One path.** `FileFut::new(&this.path)` re-opens the path it was made with, and the watcher
  looks for the same one, so the path is left out: `content` is what it holds, if it exists.
* **Wake-ups.** `waker` says whether the `AtomicWaker` holds a waker.  A wake-up goes on from a
  call of `wake` that has not been made yet (`waking`) to a task that is scheduled (`woken`).
* **Budget.** `budget` is what is left of the task's cooperative budget; the `JoinHandle` of a
  blocking call takes one unit when it is ready and none when it is pending. -/

namespace CorustHackathon.TailingFile

/-- `io::ErrorKind`: `NotFound`, and any other one. -/
inductive ErrorKind where
  | notFound
  | other (code : ℕ)
deriving DecidableEq, Repr

/-! ### The caller's buffer -/

/-- `ReadBuf`: the filled part, and the capacity that it never exceeds. -/
structure ReadBuf where
  filled : List UInt8
  capacity : ℕ
  fits : filled.length ≤ capacity
deriving DecidableEq

namespace ReadBuf

def remaining (b : ReadBuf) : ℕ := b.capacity - b.filled.length

/-- `put_slice` of as much of `bs` as there is room for. -/
def put (b : ReadBuf) (bs : List UInt8) : ReadBuf where
  filled := b.filled ++ bs.take b.remaining
  capacity := b.capacity
  fits := by
    have := b.fits
    simp only [remaining, List.length_append, List.length_take]
    omega

/-- `after > before` in `poll_read`, after the bytes `bs` have been offered. -/
def grows (b : ReadBuf) (bs : List UInt8) : Bool := b.filled.length < (b.put bs).filled.length

theorem grows_iff (b : ReadBuf) (bs : List UInt8) :
    b.grows bs = true ↔ bs ≠ [] ∧ b.remaining ≠ 0 := by
  have := List.length_eq_zero_iff (l := bs)
  simp only [grows, put, List.length_append, List.length_take, decide_eq_true_eq, ne_eq, ← this]
  omega

theorem grows_nil (b : ReadBuf) : b.grows [] = false := by
  by_contra h
  exact ((b.grows_iff []).mp (by simpa using h)).1 rfl

/-- Bytes that leave the buffer as it was have found it full. -/
theorem full_of_not_grows {b : ReadBuf} {bs : List UInt8} (h : b.grows bs = false)
    (hb : bs ≠ []) : b.remaining = 0 := by
  by_contra hr
  have := (b.grows_iff bs).mpr ⟨hb, hr⟩
  simp [h] at this

theorem take_of_not_grows {b : ReadBuf} {bs : List UInt8} (h : b.grows bs = false) :
    bs.take b.remaining = [] := by
  by_cases hb : bs = []
  · rw [hb, List.take_nil]
  · rw [full_of_not_grows h hb, List.take_zero]

/-- A buffer that does not grow is left as it was. -/
theorem put_of_not_grows {b : ReadBuf} {bs : List UInt8} (h : b.grows bs = false) :
    b.put bs = b := by
  simp [put, take_of_not_grows h]

/-- A buffer that grows is given bytes. -/
theorem take_of_grows {b : ReadBuf} {bs : List UInt8} (h : b.grows bs = true) :
    bs.take b.remaining ≠ [] := by
  obtain ⟨hb, hr⟩ := (b.grows_iff bs).mp h
  simp [List.take_eq_nil_iff, hb, hr]

theorem remaining_put {b : ReadBuf} {bs : List UInt8} (h : b.remaining = 0) :
    (b.put bs).remaining = 0 := by
  have := b.fits
  simp only [remaining, put, List.length_append, List.length_take] at h ⊢
  omega

end ReadBuf

/-! ### The blocking pool -/

/-- A call on the blocking pool, seen through its `JoinHandle`.  `join` says whether the handle
holds the waker of the task; it is woken when the call completes. -/
inductive Job (ρ : Type) where
  /-- The system call has not been made. -/
  | queued (join : Bool)
  /-- The system call has returned `r`. -/
  | ran (r : ρ) (join : Bool)
  /-- The `JoinHandle` is ready. -/
  | complete (r : ρ)
deriving DecidableEq

namespace Job

variable {ρ : Type}

/-- The handle is polled before it is ready, and keeps the waker. -/
def register : Job ρ → Job ρ
  | queued _ => queued true
  | ran r _ => ran r true
  | complete r => complete r

def ready : Job ρ → Bool
  | complete _ => true
  | _ => false

/-- Whether the completion of the call will wake the task. -/
def joins : Job ρ → Bool
  | queued w | ran _ w => w
  | complete _ => false

/-- What the system call has returned. -/
def result : Job ρ → Option ρ
  | queued _ => none
  | ran r _ | complete r => some r

@[simp] theorem register_result (j : Job ρ) : j.register.result = j.result := by cases j <;> rfl

theorem not_ready_of_joins {j : Job ρ} (h : j.joins = true) : j.ready = false := by
  cases j <;> simp_all [joins, ready]

theorem register_joins {j : Job ρ} (h : j.ready = false) : j.register.joins = true := by
  cases j <;> simp_all [register, joins, ready]

end Job

/-! ### The file -/

/-- `State` of `tokio::fs::File`: `Idle` with the bytes read and not copied out, or `Busy` with a
read of at most `max` bytes. -/
inductive FileState where
  | idle (buf : List UInt8)
  | busy (max : ℕ) (job : Job (Except ErrorKind (List UInt8)))
deriving DecidableEq

/-- `tokio::fs::File`.  `start` is the position that the seek returned, `cursor` the position of
the file descriptor. -/
structure File where
  start : ℕ
  cursor : ℕ
  state : FileState
deriving DecidableEq

namespace FileState

/-- The bytes that were read and not copied out. -/
def buffered : FileState → List UInt8
  | idle buf => buf
  | busy _ (.ran (.ok bs) _) | busy _ (.complete (.ok bs)) => bs
  | busy _ _ => []

/-- A read is queued or runs. -/
def inFlight : FileState → Bool
  | idle _ => false
  | busy _ j => !j.ready

/-- Whether the completion of the read will wake the task. -/
def joins : FileState → Bool
  | idle _ => false
  | busy _ j => j.joins

def quiet : FileState → Bool
  | idle _ => true
  | busy _ _ => false

/-- The read has found no more bytes. -/
def empty : FileState → Bool
  | idle _ => false
  | busy _ j => j.result = some (.ok [])

end FileState

/-- The future made by `FileFut::new`: `File::open(path).await?`, then
`file.seek(SeekFrom::End(0)).await?`. -/
inductive FileFut where
  /-- Never polled. -/
  | fresh
  | opening (job : Job (Except ErrorKind Unit))
  | seeking (job : Job (Except ErrorKind ℕ))
deriving DecidableEq

/-- `MaybeDone<FileFut>` -/
inductive MaybeDone where
  | future (fut : FileFut)
  | done (output : Except ErrorKind File)
  | gone
deriving DecidableEq

namespace MaybeDone

/-- A call on the blocking pool is queued or runs. -/
def inFlight : MaybeDone → Bool
  | future (.opening j) => !j.ready
  | future (.seeking j) => !j.ready
  | done (.ok f) => f.state.inFlight
  | _ => false

/-- No call on the blocking pool is awaited. -/
def quiet : MaybeDone → Bool
  | future (.opening _) | future (.seeking _) => false
  | done (.ok f) => f.state.quiet
  | _ => true

/-- Whether the completion of the call that is awaited will wake the task. -/
def joins : MaybeDone → Bool
  | future (.opening j) => j.joins
  | future (.seeking j) => j.joins
  | done (.ok f) => f.state.joins
  | _ => false

/-- The call that is awaited has found no file, or no more bytes. -/
def empty : MaybeDone → Bool
  | future (.opening j) => j.result = some (.error .notFound)
  | done (.ok f) => f.state.empty
  | _ => false

theorem inFlight_of_joins {m : MaybeDone} (h : m.joins = true) : m.inFlight = true := by
  cases m with
  | future o =>
      cases o with
      | fresh => cases h
      | opening j | seeking j => simp [inFlight, Job.not_ready_of_joins h]
  | done r =>
      cases r with
      | error e => cases h
      | ok f =>
          cases hs : f.state with
          | idle buf => simp [joins, hs, FileState.joins] at h
          | busy max j =>
              have hj : j.joins = true := by simpa [joins, hs, FileState.joins] using h
              simp [inFlight, hs, FileState.inFlight, Job.not_ready_of_joins hj]
  | gone => cases h

theorem not_empty_of_quiet {m : MaybeDone} (h : m.quiet = true) : m.empty = false := by
  cases m with
  | future o => cases o <;> first | rfl | cases h
  | done r =>
      cases r with
      | error e => rfl
      | ok f => cases hs : f.state <;> simp_all [quiet, empty, FileState.quiet, FileState.empty]
  | gone => rfl

theorem landed_of_quiet {m : MaybeDone} (h : m.quiet = true) : m.inFlight = false := by
  cases m with
  | future o => cases o <;> first | rfl | cases h
  | done r =>
      cases r with
      | error e => rfl
      | ok f =>
          cases hs : f.state <;>
            simp_all [quiet, inFlight, FileState.quiet, FileState.inFlight]
  | gone => rfl

theorem empty_cases {m : MaybeDone} (h : m.empty = true) :
    (∃ j, m = future (.opening j) ∧ j.result = some (.error .notFound)) ∨
      ∃ f max j, m = done (.ok f) ∧ f.state = .busy max j ∧ j.result = some (.ok []) := by
  cases m with
  | future o =>
      cases o with
      | opening j => exact .inl ⟨j, rfl, by simpa [empty] using h⟩
      | fresh | seeking j => cases h
  | done r =>
      cases r with
      | error e => cases h
      | ok f =>
          cases hs : f.state with
          | idle buf => simp [empty, hs, FileState.empty] at h
          | busy max j =>
              exact .inr ⟨f, max, j, rfl, hs, by simpa [empty, hs, FileState.empty] using h⟩
  | gone => cases h

end MaybeDone

/-! ### The watcher -/

/-- `notify::EventKind` -/
inductive EventKind where
  | any
  | access
  | create
  | modify
  | remove
  | other
deriving DecidableEq, Repr

/-- `notify::Event`; `ours` is `e.paths.contains(&path)`. -/
structure Event where
  kind : EventKind
  ours : Bool
deriving DecidableEq, Repr

/-- The condition under which the callback of the watcher takes the waker. -/
def Event.wanted (e : Event) : Bool := (e.kind == .modify || e.kind == .create) && e.ours

/-- The argument of the callback: an event, or an error of the watcher. -/
abbrev Notice := Option Event

def Notice.wanted : Notice → Bool
  | some e => e.wanted
  | none => false

/-! ### The system -/

/-- What a call of `poll_read` returns. -/
inductive Polled where
  | pending
  | ok
  | err (e : ErrorKind)
deriving DecidableEq, Repr

/-- The task's place in `poll_read`. -/
inductive Pc where
  /-- Outside of it; the last call returned `last`. -/
  | idle (last : Option Polled)
  /-- The `loop`: `Pin::new(&mut this.file).output_mut()` -/
  | loop (buf : ReadBuf)
  /-- `Pin::new(file).poll_read(cx, buf)` -/
  | reading (buf : ReadBuf)
  /-- `Pin::new(&mut this.file).poll(cx)`, in the `loop` of `FileFut::poll` -/
  | opening (buf : ReadBuf)
  /-- `this.waker.register(cx.waker())` -/
  | register (buf : ReadBuf)
  /-- `return Poll::Pending` -/
  | pending (buf : ReadBuf)
  | panicked
deriving DecidableEq

/-- A `TailingFile`, the task that polls it and its surroundings. -/
structure Sys where
  file : MaybeDone
  waker : Bool
  pc : Pc
  budget : ℕ
  /-- The task is scheduled. -/
  woken : Bool
  /-- Calls of `wake` that are still to be made for wakers already taken. -/
  waking : ℕ
  /-- What the path holds, if it exists. -/
  content : Option (List UInt8)
  /-- What the watcher has still to hand to its callback. -/
  events : List Notice
  /-- The bytes that `poll_read` has put into the buffers of its callers. -/
  delivered : List UInt8
deriving DecidableEq

/-- After `TailingFile::open` has returned, with the path holding `c`. -/
def init (c : Option (List UInt8)) : Sys where
  file := .future .fresh
  waker := false
  pc := .idle none
  budget := 0
  woken := false
  waking := 0
  content := c
  events := []
  delivered := []

namespace Sys

/-- The path exists and has not been opened, or the opened file holds bytes past the position of
the reader. -/
def Unseen (s : Sys) : Prop :=
  ∃ c, s.content = some c ∧
    match s.file with
    | .done (.ok f) => f.start + s.delivered.length < c.length
    | _ => True

theorem Unseen.of_future {s s' : Sys} {o : FileFut} (h : s'.Unseen)
    (hc : s'.content = s.content) (hf : s.file = .future o) : s.Unseen := by
  obtain ⟨c, hc', -⟩ := h
  exact ⟨c, hc ▸ hc', by rw [hf]; trivial⟩

theorem Unseen.of_opened {s s' : Sys} {f f' : File} (h : s'.Unseen)
    (hc : s'.content = s.content) (hd : s'.delivered = s.delivered)
    (hf : s.file = .done (.ok f)) (hf' : s'.file = .done (.ok f')) (hs : f'.start = f.start) :
    s.Unseen := by
  obtain ⟨c, hc', hu⟩ := h
  have hlt : f.start + s.delivered.length < c.length := by
    rw [hf'] at hu
    rwa [← hs, ← hd]
  exact ⟨c, hc ▸ hc', by rw [hf]; exact hlt⟩

/-- No event that the callback would act on is still to be delivered. -/
def Settled (s : Sys) : Prop := ∀ e ∈ s.events, Notice.wanted e = false

/-- **A lost wake-up**: the last poll returned `Pending`, nothing that could wake the task is on
its way, and there is something to read. -/
structure Lost (s : Sys) : Prop where
  pending : s.pc = .idle (some .pending)
  settled : s.Settled
  landed : s.file.inFlight = false
  waking : s.waking = 0
  woken : s.woken = false
  unseen : s.Unseen

end Sys

end CorustHackathon.TailingFile
