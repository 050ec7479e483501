import CorustHackathon.TailingFile.LostWakeup
import CorustHackathon.TailingFile.Suffix

/-! # The tailing file that only follows modifications

The `TailingFile` of `tailing_file/src/modified_only.rs`: `open` fails where there is no file, the
file is opened once and read from its first byte, and the callback of the watcher takes the waker
on every `Modify` event in the directory, whatever file it is about.

`Sys.tail` is the `TailingFile` of the other module that looks the same: opened where the file was
empty, and told of the events that wake this one.  Every step here is a step there (`Step.tail`),
and every run there is matched by one here (`Same.step`), so that the invariant, the delivery of the
bytes and the exact condition for a lost wake-up carry over. -/

namespace CorustHackathon.TailingFile.ModifiedOnly

/-- The task's place in `poll_read`. -/
inductive Pc where
  /-- Outside of it; the last call returned `last`. -/
  | idle (last : Option Polled)
  /-- `Pin::new(&mut this.inner).poll_read(cx, buf)` -/
  | reading (buf : ReadBuf)
  /-- `this.wakers.register(cx.waker())` -/
  | register (buf : ReadBuf)
  /-- `Poll::Pending` -/
  | pending (buf : ReadBuf)
deriving DecidableEq

/-- `e.kind.is_modify()` -/
def Notice.modifies : Notice → Bool
  | some e => e.kind == .modify
  | none => false

/-- A `TailingFile`, the task that polls it and its surroundings. -/
structure Sys where
  inner : File
  wakers : Bool
  pc : Pc
  budget : ℕ
  /-- The task is scheduled. -/
  woken : Bool
  /-- Calls of `wake` that are still to be made for wakers already taken. -/
  waking : ℕ
  content : List UInt8
  /-- What the watcher has still to hand to its callback. -/
  events : List Notice
  /-- The bytes that `poll_read` has put into the buffers of its callers. -/
  delivered : List UInt8
deriving DecidableEq

/-- After `TailingFile::open` has returned `Ok`, with the file holding `c` and the watcher, which
was started before the file was opened, still to report `es`. -/
def init (c : List UInt8) (es : List Notice) : Sys where
  inner := { start := 0, cursor := 0, state := .idle [] }
  wakers := false
  pc := .idle none
  budget := 0
  woken := false
  waking := 0
  content := c
  events := es
  delivered := []

namespace Sys

/-- `Buf::copy_to` of the bytes `buf` of the file into `b`. -/
def copy (s : Sys) (buf : List UInt8) (b : ReadBuf) : Sys :=
  { s with
    inner := { s.inner with state := .idle (buf.drop b.remaining) }
    delivered := s.delivered ++ buf.take b.remaining }

end Sys

/-- The steps of the task in `poll_read`. -/
inductive PollStep (s : Sys) : Label → Sys → Prop
  | begin {r : Option Polled} {n : ℕ} {b : ReadBuf} : s.pc = .idle r →
      PollStep s (.begin n b) { s with pc := .reading b, budget := n, woken := false }
  | spawnRead {b : ReadBuf} {max : ℕ} : s.pc = .reading b → s.inner.state = .idle [] →
      0 < max → max ≤ b.remaining →
      PollStep s (.spawnRead max)
        { s with inner := { s.inner with state := .busy max (.queued false) } }
  | copyReady {b : ReadBuf} {buf : List UInt8} : s.pc = .reading b → s.inner.state = .idle buf →
      (buf ≠ [] ∨ b.remaining = 0) → b.grows buf = true →
      PollStep s (.readyOk (b.put buf) (buf.take b.remaining))
        { s.copy buf b with pc := .idle (some .ok) }
  | copyNothing {b : ReadBuf} {buf : List UInt8} : s.pc = .reading b → s.inner.state = .idle buf →
      (buf ≠ [] ∨ b.remaining = 0) → b.grows buf = false →
      PollStep s (.noBytes (b.put buf)) { s.copy buf b with pc := .register (b.put buf) }
  | readExhausted {b : ReadBuf} {max : ℕ} {j : Job (Except ErrorKind (List UInt8))} :
      s.pc = .reading b → s.inner.state = .busy max j → s.budget = 0 →
      PollStep s .readExhausted { s with pc := .register b, woken := true }
  | readPending {b : ReadBuf} {max : ℕ} {j : Job (Except ErrorKind (List UInt8))} :
      s.pc = .reading b → s.inner.state = .busy max j → s.budget ≠ 0 → j.ready = false →
      PollStep s .readPending
        { s with inner := { s.inner with state := .busy max j.register }, pc := .register b }
  | readReady {b : ReadBuf} {max n : ℕ} {bs : List UInt8} :
      s.pc = .reading b → s.inner.state = .busy max (.complete (.ok bs)) →
      s.budget = n + 1 → b.grows bs = true →
      PollStep s (.readyOk (b.put bs) (bs.take b.remaining))
        { s.copy bs b with pc := .idle (some .ok), budget := n }
  | readNothing {b : ReadBuf} {max n : ℕ} {bs : List UInt8} :
      s.pc = .reading b → s.inner.state = .busy max (.complete (.ok bs)) →
      s.budget = n + 1 → b.grows bs = false →
      PollStep s (.noBytes (b.put bs))
        { s.copy bs b with pc := .register (b.put bs), budget := n }
  | readFailed {b : ReadBuf} {max n : ℕ} {e : ErrorKind} :
      s.pc = .reading b → s.inner.state = .busy max (.complete (.error e)) → s.budget = n + 1 →
      PollStep s (.readFailed e)
        { s with
          inner := { s.inner with state := .idle [] }
          pc := .idle (some (.err e))
          budget := n }
  | register {b : ReadBuf} : s.pc = .register b →
      PollStep s .register { s with pc := .pending b, wakers := true }
  | returnPending {b : ReadBuf} : s.pc = .pending b →
      PollStep s (.returnPending b) { s with pc := .idle (some .pending) }

/-- The reads made on the blocking pool, and their completion. -/
inductive PoolStep (s : Sys) : Label → Sys → Prop
  | runRead {max k : ℕ} {w : Bool} : s.inner.state = .busy max (.queued w) → k ≤ max →
      (k = 0 → s.content.length ≤ s.inner.cursor) →
      PoolStep s (.runRead (.ok ((s.content.drop s.inner.cursor).take k)))
        { s with
          inner :=
            { s.inner with
              cursor := s.inner.cursor + ((s.content.drop s.inner.cursor).take k).length
              state := .busy max (.ran (.ok ((s.content.drop s.inner.cursor).take k)) w) } }
  | runReadError {max : ℕ} {w : Bool} {e : ErrorKind} :
      s.inner.state = .busy max (.queued w) →
      PoolStep s (.runRead (.error e))
        { s with inner := { s.inner with state := .busy max (.ran (.error e) w) } }
  | completeRead {max : ℕ} {r : Except ErrorKind (List UInt8)} {w : Bool} :
      s.inner.state = .busy max (.ran r w) →
      PoolStep s .complete
        { s with
          inner := { s.inner with state := .busy max (.complete r) }
          waking := s.waking + w.toNat }

/-- The step of the process that writes the file. -/
inductive WriterStep (s : Sys) : Label → Sys → Prop
  | append {bs : List UInt8} : bs ≠ [] →
      WriterStep s (.append bs)
        { s with content := s.content ++ bs, events := s.events ++ [some ⟨.modify, true⟩] }

/-- The steps of the watcher's thread. -/
inductive WatcherStep (s : Sys) : Label → Sys → Prop
  | notice {e : Notice} : WatcherStep s (.notice e) { s with events := s.events ++ [e] }
  -- `if let Some(w) = wakers.take()`
  | take {e : Notice} {es : List Notice} : s.events = e :: es → Notice.modifies e = true →
      WatcherStep s (.callback e)
        { s with events := es, wakers := false, waking := s.waking + s.wakers.toNat }
  | ignore {e : Notice} {es : List Notice} : s.events = e :: es → Notice.modifies e = false →
      WatcherStep s (.callback e) { s with events := es }
  | wake {n : ℕ} : s.waking = n + 1 →
      WatcherStep s .wake { s with waking := n, woken := true }

/-- A step of the system. -/
inductive Step (s : Sys) (a : Label) (s' : Sys) : Prop
  | poll : PollStep s a s' → Step s a s'
  | pool : PoolStep s a s' → Step s a s'
  | writer : WriterStep s a s' → Step s a s'
  | watcher : WatcherStep s a s' → Step s a s'

namespace Sys

/-- The file holds bytes past the position of the reader. -/
def Unseen (s : Sys) : Prop := s.delivered.length < s.content.length

/-- **A lost wake-up**: the last poll returned `Pending`, nothing that could wake the task is on
its way, and there is something to read. -/
structure Lost (s : Sys) : Prop where
  pending : s.pc = .idle (some .pending)
  settled : ∀ e ∈ s.events, Notice.modifies e = false
  landed : s.inner.state.inFlight = false
  waking : s.waking = 0
  woken : s.woken = false
  unseen : s.Unseen

end Sys

/-! ### The other tailing file -/

/-- The same place in the other `poll_read`. -/
def Pc.tail : Pc → TailingFile.Pc
  | idle r => .idle r
  | reading b => .reading b
  | register b => .register b
  | pending b => .pending b

/-- The event of the other watcher: one of its path if it is to wake the task. -/
def Notice.tail (e : Notice) : Notice := e.map fun e => { e with ours := e.kind == .modify }

theorem Notice.wanted_tail (e : Notice) : (Notice.tail e).wanted = Notice.modifies e := by
  cases e with
  | none => rfl
  | some e =>
      cases hk : e.kind <;> simp [Notice.tail, Notice.wanted, Event.wanted, Notice.modifies, hk]

/-- The `TailingFile` that creates as well, in the same state. -/
def Sys.tail (s : Sys) : TailingFile.Sys where
  file := .done (.ok s.inner)
  waker := s.wakers
  pc := s.pc.tail
  budget := s.budget
  woken := s.woken
  waking := s.waking
  content := some s.content
  events := s.events.map Notice.tail
  delivered := s.delivered

def labelTail : Label → Label
  | .notice e => .notice (Notice.tail e)
  | .callback e => .callback (Notice.tail e)
  | a => a

variable {s s' : Sys} {a : Label} {tr : List Label}

theorem PollStep.tail (h : PollStep s a s') :
    (∃ n b m, a = .begin n b ∧ TailingFile.PollStep s.tail a m ∧
      TailingFile.PollStep m .matchOpened s'.tail) ∨
    TailingFile.PollStep s.tail (labelTail a) s'.tail := by
  have pc : ∀ {p}, s.pc = p → s.tail.pc = p.tail := fun hp => congrArg Pc.tail hp
  cases h with
  | begin hp => exact .inl ⟨_, _, _, rfl, .begin (pc hp), .matchOpened rfl rfl⟩
  | spawnRead hp hi h₀ hm => exact .inr (.spawnRead (pc hp) rfl hi h₀ hm)
  | copyReady hp hi hb hg => exact .inr (.copyReady (pc hp) rfl hi hb hg)
  | copyNothing hp hi hb hg => exact .inr (.copyNothing (pc hp) rfl hi hb hg)
  | readExhausted hp hi hb => exact .inr (.readExhausted (pc hp) rfl hi hb)
  | readPending hp hi hb hj => exact .inr (.readPending (pc hp) rfl hi hb hj)
  | readReady hp hi hb hg => exact .inr (.readReady (pc hp) rfl hi hb hg)
  | readNothing hp hi hb hg => exact .inr (.readNothing (pc hp) rfl hi hb hg)
  | readFailed hp hi hb => exact .inr (.readFailed (pc hp) rfl hi hb)
  | register hp => exact .inr (.register (pc hp))
  | returnPending hp => exact .inr (.returnPending (pc hp))

theorem PoolStep.tail (h : PoolStep s a s') :
    TailingFile.PoolStep s.tail (labelTail a) s'.tail := by
  cases h with
  | runRead hi hk hz => exact .runRead rfl hi rfl hk hz
  | runReadError hi => exact .runReadError rfl hi
  | completeRead hi => exact .completeRead rfl hi

theorem WriterStep.tail (h : WriterStep s a s') :
    TailingFile.WriterStep s.tail (labelTail a) s'.tail := by
  cases h with
  | append hb =>
      have := TailingFile.WriterStep.append (s := s.tail) rfl hb
      simpa [Sys.tail, Notice.tail, labelTail] using this

theorem WatcherStep.tail (h : WatcherStep s a s') :
    TailingFile.WatcherStep s.tail (labelTail a) s'.tail := by
  have events : ∀ {e es}, s.events = e :: es →
      s.tail.events = Notice.tail e :: es.map Notice.tail := fun he => congrArg (List.map _) he
  cases h with
  | @notice e =>
      have := TailingFile.WatcherStep.notice (s := s.tail) (e := Notice.tail e)
      simpa [Sys.tail, labelTail] using this
  | take he hm => exact .take (events he) ((Notice.wanted_tail _).trans hm)
  | ignore he hm => exact .ignore (events he) ((Notice.wanted_tail _).trans hm)
  | wake hw => exact .wake hw

/-- **Every step of this tail is one of the other**, the begin of a poll also the choice of the
first arm of its `match`. -/
theorem Step.tail (h : Step s a s') :
    (∃ n b m, a = .begin n b ∧ TailingFile.Step s.tail a m ∧
      TailingFile.Step m .matchOpened s'.tail) ∨
    TailingFile.Step s.tail (labelTail a) s'.tail := by
  cases h with
  | poll h =>
      rcases h.tail with ⟨n, b, m, ha, h₁, h₂⟩ | h
      · exact .inl ⟨n, b, m, ha, .poll h₁, .poll h₂⟩
      · exact .inr (.poll h)
  | pool h => exact .inr (.pool h.tail)
  | writer h => exact .inr (.writer h.tail)
  | watcher h => exact .inr (.watcher h.tail)

/-! ### And back -/

/-- The state `t` of the other tail looks like the state `s` of this one, but for the choice of the
first arm of its `match`. -/
structure Same (t : TailingFile.Sys) (s : Sys) : Prop where
  file : t.file = .done (.ok s.inner)
  waker : t.waker = s.wakers
  pc : t.pc = s.pc.tail ∨ ∃ b, s.pc = .reading b ∧ t.pc = .loop b
  budget : t.budget = s.budget
  woken : t.woken = s.woken
  waking : t.waking = s.waking
  content : t.content = some s.content
  events : t.events.map Notice.wanted = s.events.map Notice.modifies
  delivered : t.delivered = s.delivered

namespace Same

variable {t t' : TailingFile.Sys}

theorem tail (s : Sys) : Same s.tail s where
  file := rfl
  waker := rfl
  pc := .inl rfl
  budget := rfl
  woken := rfl
  waking := rfl
  content := rfl
  events := by simp [Sys.tail, Notice.wanted_tail]
  delivered := rfl

theorem inner (h : Same t s) {f : File} (hf : t.file = .done (.ok f)) : s.inner = f := by
  have := h.file.symm.trans hf
  simpa using this

theorem idle (h : Same t s) {r : Option Polled} (hp : t.pc = .idle r) : s.pc = .idle r := by
  rcases h.pc with hpc | ⟨b, -, hpc⟩
  · rw [hp] at hpc
    cases hs : s.pc <;> simp_all [Pc.tail]
  · rw [hp] at hpc
    cases hpc

theorem reading (h : Same t s) {b : ReadBuf} (hp : t.pc = .reading b) : s.pc = .reading b := by
  rcases h.pc with hpc | ⟨b, -, hpc⟩
  · rw [hp] at hpc
    cases hs : s.pc <;> simp_all [Pc.tail]
  · rw [hp] at hpc
    cases hpc

theorem register (h : Same t s) {b : ReadBuf} (hp : t.pc = .register b) : s.pc = .register b := by
  rcases h.pc with hpc | ⟨b, -, hpc⟩
  · rw [hp] at hpc
    cases hs : s.pc <;> simp_all [Pc.tail]
  · rw [hp] at hpc
    cases hpc

theorem pending (h : Same t s) {b : ReadBuf} (hp : t.pc = .pending b) : s.pc = .pending b := by
  rcases h.pc with hpc | ⟨b, -, hpc⟩
  · rw [hp] at hpc
    cases hs : s.pc <;> simp_all [Pc.tail]
  · rw [hp] at hpc
    cases hpc

theorem loop (h : Same t s) {b : ReadBuf} (hp : t.pc = .loop b) : s.pc = .reading b := by
  rcases h.pc with hpc | ⟨b', hs, hpc⟩
  · rw [hp] at hpc
    cases hs : s.pc <;> simp_all [Pc.tail]
  · rw [hp] at hpc
    cases hpc
    exact hs

theorem pollStep (h : Same t s) (hs : TailingFile.PollStep t a t') :
    ∃ tr s', Run Step s tr s' ∧ Same t' s' := by
  have hfile := h.file
  have one : ∀ {a s'}, PollStep s a s' → Same t' s' → ∃ tr s', Run Step s tr s' ∧ Same t' s' :=
    fun hs hS => ⟨_, _, .single (.poll hs), hS⟩
  cases hs with
  | begin hp =>
      exact one (.begin (h.idle hp)) ⟨h.file, h.waker, .inr ⟨_, rfl, rfl⟩, rfl, rfl, h.waking,
        h.content, h.events, h.delivered⟩
  | matchOpened hp hf =>
      refine ⟨[], s, .nil, h.file, h.waker, .inl ?_, h.budget, h.woken, h.waking, h.content,
        h.events, h.delivered⟩
      rw [h.loop hp]
      rfl
  | takeError hp hf | matchFuture hp hf | panic hp hf | spawnOpen hp hf | openExhausted hp hf
  | openPending hp hf | spawnSeek hp hf | renew hp hf | openFailed hp hf | seekExhausted hp hf
  | seekPending hp hf | opened hp hf | seekFailed hp hf =>
      rw [hf] at hfile
      cases hfile
  | spawnRead hp hf hi h₀ hm =>
      obtain rfl := h.inner hf
      refine one (.spawnRead (h.reading hp) hi h₀ hm) ⟨rfl, h.waker, ?_, h.budget, h.woken,
        h.waking, h.content, h.events, h.delivered⟩
      exact h.pc
  | copyReady hp hf hi hb hg =>
      obtain rfl := h.inner hf
      exact one (.copyReady (h.reading hp) hi hb hg) ⟨rfl, h.waker, .inl rfl, h.budget, h.woken,
        h.waking, h.content, h.events, congrArg (· ++ _) h.delivered⟩
  | copyNothing hp hf hi hb hg =>
      obtain rfl := h.inner hf
      exact one (.copyNothing (h.reading hp) hi hb hg) ⟨rfl, h.waker, .inl rfl, h.budget, h.woken,
        h.waking, h.content, h.events, congrArg (· ++ _) h.delivered⟩
  | readExhausted hp hf hi hb =>
      obtain rfl := h.inner hf
      exact one (.readExhausted (h.reading hp) hi (h.budget ▸ hb)) ⟨h.file, h.waker, .inl rfl,
        h.budget, rfl, h.waking, h.content, h.events, h.delivered⟩
  | readPending hp hf hi hb hj =>
      obtain rfl := h.inner hf
      exact one (.readPending (h.reading hp) hi (h.budget ▸ hb) hj) ⟨rfl, h.waker, .inl rfl,
        h.budget, h.woken, h.waking, h.content, h.events, h.delivered⟩
  | readReady hp hf hi hb hg =>
      obtain rfl := h.inner hf
      exact one (.readReady (h.reading hp) hi (h.budget ▸ hb) hg) ⟨rfl, h.waker, .inl rfl, rfl,
        h.woken, h.waking, h.content, h.events, congrArg (· ++ _) h.delivered⟩
  | readNothing hp hf hi hb hg =>
      obtain rfl := h.inner hf
      exact one (.readNothing (h.reading hp) hi (h.budget ▸ hb) hg) ⟨rfl, h.waker, .inl rfl, rfl,
        h.woken, h.waking, h.content, h.events, congrArg (· ++ _) h.delivered⟩
  | readFailed hp hf hi hb =>
      obtain rfl := h.inner hf
      exact one (.readFailed (h.reading hp) hi (h.budget ▸ hb)) ⟨rfl, h.waker, .inl rfl, rfl,
        h.woken, h.waking, h.content, h.events, h.delivered⟩
  | register hp =>
      exact one (.register (h.register hp)) ⟨h.file, rfl, .inl rfl, h.budget, h.woken, h.waking,
        h.content, h.events, h.delivered⟩
  | returnPending hp =>
      exact one (.returnPending (h.pending hp)) ⟨h.file, h.waker, .inl rfl, h.budget, h.woken,
        h.waking, h.content, h.events, h.delivered⟩

theorem poolStep (h : Same t s) (hs : TailingFile.PoolStep t a t') :
    ∃ tr s', Run Step s tr s' ∧ Same t' s' := by
  have hfile := h.file
  have one : ∀ {a s'}, PoolStep s a s' → Same t' s' → ∃ tr s', Run Step s tr s' ∧ Same t' s' :=
    fun hs hS => ⟨_, _, .single (.pool hs), hS⟩
  cases hs with
  | runOpen hf | runOpenMissing hf | runOpenError hf | runSeek hf | runSeekError hf
  | completeOpen hf | completeSeek hf =>
      rw [hf] at hfile
      cases hfile
  | runRead hf hi hc hk hz =>
      obtain rfl := h.inner hf
      obtain rfl : s.content = _ := by simpa using h.content.symm.trans hc
      exact one (.runRead hi hk hz) ⟨rfl, h.waker, h.pc, h.budget, h.woken, h.waking, h.content,
        h.events, h.delivered⟩
  | runReadError hf hi =>
      obtain rfl := h.inner hf
      exact one (.runReadError hi) ⟨rfl, h.waker, h.pc, h.budget, h.woken, h.waking, h.content,
        h.events, h.delivered⟩
  | completeRead hf hi =>
      obtain rfl := h.inner hf
      exact one (.completeRead hi) ⟨rfl, h.waker, h.pc, h.budget, h.woken,
        congrArg (· + _) h.waking, h.content, h.events, h.delivered⟩

theorem writerStep (h : Same t s) (hs : TailingFile.WriterStep t a t') :
    ∃ tr s', Run Step s tr s' ∧ Same t' s' := by
  have hcontent := h.content
  cases hs with
  | create hc =>
      rw [hc] at hcontent
      cases hcontent
  | append hc hb =>
      rw [hc] at hcontent
      cases hcontent
      refine ⟨_, _, .single (.writer (.append hb)), h.file, h.waker, h.pc, h.budget, h.woken,
        h.waking, rfl, ?_, h.delivered⟩
      simp only [List.map_append, h.events]
      rfl

theorem watcherStep (h : Same t s) (hs : TailingFile.WatcherStep t a t') :
    ∃ tr s', Run Step s tr s' ∧ Same t' s' := by
  have hevents := h.events
  cases hs with
  | @notice e =>
      -- an event that wakes the one wakes the other
      refine ⟨_, _, .single (.watcher (.notice (e := if e.wanted then some ⟨.modify, true⟩
        else none))), h.file, h.waker, h.pc, h.budget, h.woken, h.waking, h.content, ?_,
        h.delivered⟩
      simp only [List.map_append, List.map_singleton, h.events]
      cases e.wanted <;> rfl
  | take he hw =>
      rw [he, List.map_cons, eq_comm, List.map_eq_cons_iff] at hevents
      obtain ⟨e', es', hs, hm, hes⟩ := hevents
      exact ⟨_, _, .single (.watcher (.take hs (hm.trans hw))), h.file, rfl, h.pc, h.budget,
        h.woken, by simp [h.waking, h.waker], h.content, hes.symm, h.delivered⟩
  | ignore he hw =>
      rw [he, List.map_cons, eq_comm, List.map_eq_cons_iff] at hevents
      obtain ⟨e', es', hs, hm, hes⟩ := hevents
      exact ⟨_, _, .single (.watcher (.ignore hs (hm.trans hw))), h.file, h.waker, h.pc, h.budget,
        h.woken, h.waking, h.content, hes.symm, h.delivered⟩
  | wake hw =>
      exact ⟨_, _, .single (.watcher (.wake (h.waking ▸ hw))), h.file, h.waker, h.pc, h.budget,
        rfl, rfl, h.content, h.events, h.delivered⟩

/-- **Every step of the other tail is matched by this one.** -/
theorem step (h : Same t s) (hs : TailingFile.Step t a t') :
    ∃ tr s', Run Step s tr s' ∧ Same t' s' := by
  cases hs with
  | poll hs => exact h.pollStep hs
  | pool hs => exact h.poolStep hs
  | writer hs => exact h.writerStep hs
  | watcher hs => exact h.watcherStep hs

end Same

/-! ### What carries over -/

/-- What a step of this tail is called in the other one. -/
def labelsTail : Label → List Label
  | .begin n b => [.begin n b, .matchOpened]
  | a => [labelTail a]

theorem Step.run_tail (h : Step s a s') :
    Run TailingFile.Step s.tail (labelsTail a) s'.tail := by
  rcases h.tail with ⟨n, b, m, rfl, h₁, h₂⟩ | hs
  · exact .cons h₁ (.single h₂)
  · cases a with
    | begin n b =>
        cases h with
        | poll h =>
            cases h with
            | begin hp =>
                refine .cons (.poll (.begin (congrArg Pc.tail hp))) (.single (.poll ?_))
                exact .matchOpened rfl rfl
        | pool h | writer h | watcher h => cases h
    | _ => exact .single hs

/-- **The two tails do the same once the file is open at its first byte**: every run of this tail is
a run of the other one, and every run of the other one leads to a state that looks like one this
tail can reach. -/
theorem tails_agree (c : List UInt8) (es : List Notice) :
    (∀ tr s, Run Step (init c es) tr s →
      Run TailingFile.Step (init c es).tail (tr.flatMap labelsTail) s.tail) ∧
    ∀ tr t, Run TailingFile.Step (init c es).tail tr t →
      ∃ tr' s, Run Step (init c es) tr' s ∧ Same t s := by
  constructor
  · intro tr s h
    obtain ⟨t, ht, rfl⟩ := Run.simulate (R := fun s t => t = s.tail)
      (fun s t a s' hR hs => ⟨s'.tail, hR ▸ hs.run_tail, rfl⟩) rfl h
    exact ht
  · intro tr t h
    refine h.preserves (I := fun t => ∃ tr' s, Run Step (init c es) tr' s ∧ Same t s) ?_
      ⟨[], _, .nil, .tail _⟩
    rintro t₁ a t₂ ⟨tr₁, s₁, hr, hS⟩ hs
    obtain ⟨tr₂, s₂, hr', hS'⟩ := hS.step hs
    exact ⟨_, s₂, hr.trans hr', hS'⟩

/-- An event about another file is there when the tail is opened; the callback takes no waker. -/
theorem tails_agree_event : ∃ s : Sys, s.events = [] ∧
    Run TailingFile.Step (init [] [some ⟨.modify, false⟩]).tail [.callback (some ⟨.modify, true⟩)]
      s.tail := by
  have h : Run Step (init [] [some ⟨.modify, false⟩]) [.callback (some ⟨.modify, false⟩)] _ :=
    .single (.watcher (.take rfl rfl))
  exact ⟨_, rfl, (tails_agree [] [some ⟨.modify, false⟩]).1 _ _ h⟩

/-- The invariant of every run. -/
structure Inv (s : Sys) : Prop where
  tail : TailingFile.Inv s.tail
  /-- The file is read from its first byte. -/
  start : s.inner.start = 0

namespace Inv

theorem init (c : List UInt8) (es : List Notice) : Inv (init c es) where
  tail := ⟨trivial, [], c, by simp [Sys.tail, ModifiedOnly.init, FileState.buffered], rfl, rfl⟩
  start := rfl

theorem step (hI : Inv s) (h : Step s a s') : Inv s' where
  tail := h.run_tail.preserves (fun _ _ _ hI hs => hI.step hs) hI.tail
  start := by
    have hs := hI.start
    cases h with
    | poll h => cases h <;> exact hs
    | pool h => cases h <;> exact hs
    | writer h => cases h; exact hs
    | watcher h => cases h <;> exact hs

theorem of_run {c : List UInt8} {es : List Notice} (h : Run Step (ModifiedOnly.init c es) tr s) :
    Inv s :=
  h.preserves (fun _ _ _ hI hs => hI.step hs) (.init c es)

/-- There is something to read for the one where there is for the other. -/
theorem unseen_iff (hI : Inv s) : s.tail.Unseen ↔ s.Unseen := by
  simp [TailingFile.Sys.Unseen, Sys.tail, Sys.Unseen, hI.start]

end Inv

/-! ### The bytes -/

/-- The bytes that a step appends to the file. -/
def appends : Label → List UInt8
  | .append bs => bs
  | _ => []

theorem Step.content (h : Step s a s') : s'.content = s.content ++ appends a := by
  cases h with
  | poll h => cases h <;> simp [appends, Sys.copy]
  | pool h => cases h <;> simp [appends]
  | writer h => cases h; rfl
  | watcher h => cases h <;> simp [appends]

theorem bytes_labelsTail (a : Label) : bytes (labelsTail a) = a.bytes := by
  cases a <;> simp [bytes, labelsTail, labelTail, Label.bytes]

theorem Step.delivered (h : Step s a s') : s'.delivered = s.delivered ++ a.bytes := by
  have := h.run_tail.flatMap_eq (f := TailingFile.Sys.delivered) fun _ _ _ hs => hs.delivered
  rw [← bytes_labelsTail a]
  exact this

/-- A poll keeps the buffer it began with until it returns. -/
theorem Step.buffer {b : ReadBuf} (h : Step s a s') (hb : s'.tail.pc.buffer = some b) :
    a.begun = [b] ∨ (a.begun = [] ∧ s.tail.pc.buffer = some b) := by
  rcases h.tail with ⟨n, b', m, rfl, h₁, h₂⟩ | h
  · obtain ⟨-, hm⟩ := (h₂.buffer hb).resolve_left fun he => by cases he
    exact h₁.buffer hm
  · have hbegun : (labelTail a).begun = a.begun := by cases a <;> rfl
    rw [← hbegun]
    exact h.buffer hb

theorem buffer_eq {c : List UInt8} {es : List Notice} {b : ReadBuf}
    (h : Run Step (init c es) tr s) (hb : s.tail.pc.buffer = some b) : buffer tr = some b := by
  refine h.invariant (I := fun tr s => ∀ b, s.tail.pc.buffer = some b → buffer tr = some b)
    (by rintro b ⟨⟩) (fun tr s₁ a s₂ _ hi hs b hb => ?_) b hb
  rw [buffer, List.flatMap_append, List.flatMap_singleton]
  rcases hs.buffer hb with ha | ⟨ha, hb⟩
  · rw [ha]
    simp
  · rw [ha, List.append_nil]
    exact hi b hb

/-- What the history `tr` of a tail looks like whose file held `c` when it was opened. -/
structure Follows (c : List UInt8) (tr : List Label) : Prop where
  /-- The bytes of all polls are the first ones of the file. -/
  first : bytes tr <+: c ++ tr.flatMap appends
  /-- A poll that returns `Pending` leaves its buffer as it was. -/
  pending : ∀ tr₁ b tr₂, tr = tr₁ ++ .returnPending b :: tr₂ → buffer tr₁ = some b
  /-- A poll that returns `Ready(Ok)` has appended at least one byte: there is no end of file. -/
  ready : ∀ tr₁ b bs tr₂, tr = tr₁ ++ .readyOk b bs :: tr₂ →
    bs ≠ [] ∧ ∃ b₀, buffer tr₁ = some b₀ ∧ b.filled = b₀.filled ++ bs ∧ b.capacity = b₀.capacity

/-- **The tail delivers the file from its first byte**, without a gap, for every schedule of polls
with buffers of any size, read errors, appends and events. -/
theorem follows_from_first_byte {c : List UInt8} {es : List Notice}
    (h : Run Step (init c es) tr s) : Follows c tr where
  first := by
    have hd : s.delivered = bytes tr :=
      h.flatMap_eq (f := Sys.delivered) fun _ _ _ hs => hs.delivered
    have hc : s.content = c ++ tr.flatMap appends :=
      h.flatMap_eq (f := Sys.content) fun _ _ _ hs => hs.content
    have hI := Inv.of_run h
    obtain ⟨k, hk, hpre⟩ := hI.tail.delivered (f := s.inner) rfl
    cases hk
    rw [hI.start, List.drop_zero] at hpre
    have hpre : s.delivered = s.content.take s.delivered.length := hpre
    rw [← hd, ← hc, hpre]
    exact List.take_prefix _ _
  pending tr₁ b tr₂ he := by
    subst he
    obtain ⟨m, m', h₁, hs, -⟩ := h.split_at
    rcases hs.tail with ⟨n, b', m, he, -⟩ | hs
    · cases he
    · exact buffer_eq h₁ hs.returnPending
  ready tr₁ b bs tr₂ he := by
    subst he
    obtain ⟨m, m', h₁, hs, -⟩ := h.split_at
    rcases hs.tail with ⟨n, b', m, he, -⟩ | hs
    · cases he
    · obtain ⟨hbs, b₀, hb, hput⟩ := hs.readyOk
      exact ⟨hbs, b₀, buffer_eq h₁ hb, hput⟩

/-- A file of two bytes is read with room for one, and a third byte is appended. -/
theorem follows_from_first_byte_two : ∃ tr s, Run Step (init [1, 2] []) tr s ∧
    bytes tr = [1] ∧ Follows [1, 2] tr := by
  have h := (.nil : Run Step (init [1, 2] []) [] (init [1, 2] []))
    |>.snoc (.poll (.begin (n := 1) (b := ⟨[7], 2, by decide⟩) rfl))
    |>.snoc (.poll (.spawnRead rfl rfl Nat.one_pos le_rfl))
    |>.snoc (.pool (.runRead (k := 1) rfl le_rfl nofun))
    |>.snoc (.writer (.append (List.cons_ne_nil 3 [])))
    |>.snoc (.pool (.completeRead rfl))
    |>.snoc (.poll (.readReady rfl rfl rfl rfl))
  exact ⟨_, _, h, rfl, follows_from_first_byte h⟩

/-! ### The wake-ups -/

/-- The condition on a step, as for the other tail. -/
def Timely (s : Sys) (a : Label) : Prop := s.tail.Timely (labelTail a)

theorem Sys.Lost.tail (h : s.Lost) (hI : Inv s) : s.tail.Lost where
  pending := congrArg Pc.tail h.pending
  settled e he := by
    obtain ⟨e', he', rfl⟩ := List.mem_map.mp he
    rw [Notice.wanted_tail]
    exact h.settled e' he'
  landed := h.landed
  waking := h.waking
  woken := h.woken
  unseen := hI.unseen_iff.mpr h.unseen

theorem Same.lost {t : TailingFile.Sys} (h : Same t s) (hI : Inv s) (hl : t.Lost) : s.Lost where
  pending := h.idle hl.pending
  settled e he := by
    have hm : Notice.modifies e ∈ t.events.map Notice.wanted := by
      rw [h.events]
      exact List.mem_map_of_mem he
    obtain ⟨e', he', hw⟩ := List.mem_map.mp hm
    rw [← hw]
    exact hl.settled e' he'
  landed := by
    have := hl.landed
    rw [h.file] at this
    exact this
  waking := h.waking ▸ hl.waking
  woken := h.woken ▸ hl.woken
  unseen := by
    obtain ⟨c, hc, hu⟩ := hl.unseen
    have hcs : s.content = c := by simpa using h.content.symm.trans hc
    rw [h.file] at hu
    simp only [hI.start, h.delivered, Nat.zero_add] at hu
    rw [Sys.Unseen, hcs]
    exact hu

theorem Step.alert (h : Step s a s') (hI : Inv s) (hA : Alert s.tail) (ht : Timely s a) :
    Alert s'.tail := by
  rcases h.tail with ⟨n, b, m, rfl, h₁, h₂⟩ | h
  · exact (hA.step hI.tail h₁ trivial).step (hI.tail.step h₁) h₂ trivial
  · exact hA.step hI.tail h ht

theorem alert_init (c : List UInt8) (es : List Notice) : Alert (init c es).tail :=
  .of_idle rfl rfl

/-- **Where this tail loses a wake-up**: exactly at the steps that are not timely, although its
callback takes the waker on the events of every file in the directory. -/
theorem lost_iff_untimely (c : List UInt8) (es : List Notice) :
    (∀ tr s, Run (Guarded Step Timely) (init c es) tr s → ¬ s.Lost) ∧
      ∀ tr s a s', Run Step (init c es) tr s → Step s a s' → ¬ Timely s a →
        CanReach Step Sys.Lost s' := by
  constructor
  · intro tr s h hl
    obtain ⟨hI, hA⟩ := h.guarded (.init c es) (alert_init c es) (fun _ _ _ hI hs => hI.step hs)
      fun _ _ _ hI hA hs ht => hs.alert hI hA ht
    exact hA.not_lost (hl.tail hI)
  · intro tr s a s' hr hs ht
    have hI := Inv.of_run hr
    have htail : TailingFile.Step s.tail (labelTail a) s'.tail := by
      rcases hs.tail with ⟨n, b, m, rfl, -⟩ | h
      · exact absurd trivial ht
      · exact h
    refine (canLose_of_not_timely hI.tail htail ht).simulate
      (R := fun t s => Same t s ∧ Inv s) ?_ (fun t s hR hl => hR.1.lost hR.2 hl)
      ⟨.tail _, hI.step hs⟩
    rintro t s₁ b t' ⟨hS, hI₁⟩ hstep
    obtain ⟨tr', s₂, hr', hS'⟩ := hS.step hstep
    exact ⟨tr', s₂, hr', hS', hr'.preserves (fun _ _ _ hI hs => hI.step hs) hI₁⟩

/-- A poll that awaits a read has registered when a byte is appended. -/
theorem lost_iff_untimely_appended : ∃ tr s,
    Run (Guarded Step Timely) (init [] []) tr s ∧ s.content = [7] ∧ s.Unseen ∧ ¬ s.Lost := by
  have h := (.nil : Run (Guarded Step Timely) (init [] []) [] (init [] []))
    |>.snoc ⟨.poll (.begin (n := 1) (b := ⟨[], 1, by decide⟩) rfl), trivial⟩
    |>.snoc ⟨.poll (.spawnRead rfl rfl Nat.one_pos le_rfl), trivial⟩
    |>.snoc ⟨.poll (.readPending rfl rfl Nat.one_ne_zero rfl), trivial⟩
    |>.snoc ⟨.poll (.register rfl), trivial⟩
    |>.snoc ⟨.poll (.returnPending rfl), trivial⟩
    |>.snoc ⟨.writer (.append (List.cons_ne_nil 7 [])), trivial⟩
  exact ⟨_, _, h, rfl, Nat.zero_lt_one, (lost_iff_untimely [] []).1 _ _ h⟩

end CorustHackathon.TailingFile.ModifiedOnly
