import CorustHackathon.Runs
import CorustHackathon.TailingFile.State

/-! # The tailing file: steps

`PollStep` is the task in `TailingFile::poll_read`, with the `FileFut::poll` and the
`tokio::fs::File::poll_read` that it calls; `PoolStep` is the blocking pool, `WriterStep` the
process that creates the file and appends to it, and `WatcherStep` the thread of the watcher.

A poll may begin whenever no other one is going on, with any buffer and any budget, so that
polls that nobody woke are among the runs. -/

namespace CorustHackathon.TailingFile

/-- What a step does, for the history. -/
inductive Label where
  /-- The task is polled with the buffer `b` and a budget of `n`. -/
  | begin (n : ℕ) (b : ReadBuf)
  | matchOpened
  /-- `take_output().unwrap().unwrap_err()`; the poll returns the error. -/
  | takeError (e : ErrorKind)
  | matchFuture
  /-- `MaybeDone::poll` panics on `Gone`. -/
  | panic
  | spawnOpen
  /-- The inner poll returns `Pending` for want of budget. -/
  | openExhausted
  | openPending
  | spawnSeek
  /-- The open found nothing: `*this = FileFut::new(&this.path)`. -/
  | renew
  | openFailed (e : ErrorKind)
  | seekExhausted
  | seekPending
  /-- `FileFut::poll` returns the file, which was `p` bytes long when the seek ran. -/
  | opened (p : ℕ)
  | seekFailed (e : ErrorKind)
  | spawnRead (max : ℕ)
  | readExhausted
  | readPending
  /-- The poll returns `Ready(Ok)` with the buffer `b`, into which it has put `bs`. -/
  | readyOk (b : ReadBuf) (bs : List UInt8)
  /-- The read of the file has put nothing into the buffer `b`. -/
  | noBytes (b : ReadBuf)
  | readFailed (e : ErrorKind)
  | register
  /-- The poll returns `Pending` with the buffer `b`. -/
  | returnPending (b : ReadBuf)
  | runOpen (r : Except ErrorKind Unit)
  | runSeek (r : Except ErrorKind ℕ)
  | runRead (r : Except ErrorKind (List UInt8))
  | complete
  | create
  | append (bs : List UInt8)
  /-- The watcher sees something that is no change of the file. -/
  | notice (e : Notice)
  /-- The callback of the watcher is called with `e`. -/
  | callback (e : Notice)
  | wake
deriving DecidableEq

namespace Sys

/-- `Buf::copy_to` of the bytes `buf` of the file `f` into `b`: what fits is delivered, the rest
stays in the buffer of the file. -/
def copy (s : Sys) (f : File) (buf : List UInt8) (b : ReadBuf) : Sys :=
  { s with
    file := .done (.ok { f with state := .idle (buf.drop b.remaining) })
    delivered := s.delivered ++ buf.take b.remaining }

end Sys

/-- The steps of the task in `poll_read`. -/
inductive PollStep (s : Sys) : Label → Sys → Prop
  | begin {r : Option Polled} {n : ℕ} {b : ReadBuf} : s.pc = .idle r →
      PollStep s (.begin n b) { s with pc := .loop b, budget := n, woken := false }
  | matchOpened {b : ReadBuf} {f : File} : s.pc = .loop b → s.file = .done (.ok f) →
      PollStep s .matchOpened { s with pc := .reading b }
  | takeError {b : ReadBuf} {e : ErrorKind} : s.pc = .loop b → s.file = .done (.error e) →
      PollStep s (.takeError e) { s with pc := .idle (some (.err e)), file := .gone }
  | matchFuture {b : ReadBuf} {o : FileFut} : s.pc = .loop b → s.file = .future o →
      PollStep s .matchFuture { s with pc := .opening b }
  | panic {b : ReadBuf} : s.pc = .loop b → s.file = .gone →
      PollStep s .panic { s with pc := .panicked }
  | spawnOpen {b : ReadBuf} : s.pc = .opening b → s.file = .future .fresh →
      PollStep s .spawnOpen { s with file := .future (.opening (.queued false)) }
  -- an exhausted budget wakes the task at once, and the `loop` of `FileFut::poll` goes on
  | openExhausted {b : ReadBuf} {j : Job (Except ErrorKind Unit)} :
      s.pc = .opening b → s.file = .future (.opening j) → s.budget = 0 →
      PollStep s .openExhausted { s with woken := true }
  | openPending {b : ReadBuf} {j : Job (Except ErrorKind Unit)} :
      s.pc = .opening b → s.file = .future (.opening j) → s.budget ≠ 0 → j.ready = false →
      PollStep s .openPending { s with file := .future (.opening j.register) }
  | spawnSeek {b : ReadBuf} {n : ℕ} :
      s.pc = .opening b → s.file = .future (.opening (.complete (.ok ()))) → s.budget = n + 1 →
      PollStep s .spawnSeek { s with file := .future (.seeking (.queued false)), budget := n }
  | renew {b : ReadBuf} {n : ℕ} : s.pc = .opening b →
      s.file = .future (.opening (.complete (.error .notFound))) → s.budget = n + 1 →
      PollStep s .renew { s with file := .future .fresh, pc := .register b, budget := n }
  | openFailed {b : ReadBuf} {e : ErrorKind} {n : ℕ} : s.pc = .opening b →
      s.file = .future (.opening (.complete (.error e))) → e ≠ .notFound → s.budget = n + 1 →
      PollStep s (.openFailed e) { s with file := .done (.error e), pc := .loop b, budget := n }
  | seekExhausted {b : ReadBuf} {j : Job (Except ErrorKind ℕ)} :
      s.pc = .opening b → s.file = .future (.seeking j) → s.budget = 0 →
      PollStep s .seekExhausted { s with woken := true }
  | seekPending {b : ReadBuf} {j : Job (Except ErrorKind ℕ)} :
      s.pc = .opening b → s.file = .future (.seeking j) → s.budget ≠ 0 → j.ready = false →
      PollStep s .seekPending { s with file := .future (.seeking j.register) }
  | opened {b : ReadBuf} {p n : ℕ} :
      s.pc = .opening b → s.file = .future (.seeking (.complete (.ok p))) → s.budget = n + 1 →
      PollStep s (.opened p)
        { s with
          file := .done (.ok { start := p, cursor := p, state := .idle [] })
          pc := .loop b
          budget := n }
  | seekFailed {b : ReadBuf} {e : ErrorKind} {n : ℕ} :
      s.pc = .opening b → s.file = .future (.seeking (.complete (.error e))) → s.budget = n + 1 →
      PollStep s (.seekFailed e) { s with file := .done (.error e), pc := .loop b, budget := n }
  -- `max` is the room in the buffer, or the most that the file reads at once
  | spawnRead {b : ReadBuf} {f : File} {max : ℕ} :
      s.pc = .reading b → s.file = .done (.ok f) → f.state = .idle [] →
      0 < max → max ≤ b.remaining →
      PollStep s (.spawnRead max)
        { s with file := .done (.ok { f with state := .busy max (.queued false) }) }
  | copyReady {b : ReadBuf} {f : File} {buf : List UInt8} :
      s.pc = .reading b → s.file = .done (.ok f) → f.state = .idle buf →
      (buf ≠ [] ∨ b.remaining = 0) → b.grows buf = true →
      PollStep s (.readyOk (b.put buf) (buf.take b.remaining))
        { s.copy f buf b with pc := .idle (some .ok) }
  | copyNothing {b : ReadBuf} {f : File} {buf : List UInt8} :
      s.pc = .reading b → s.file = .done (.ok f) → f.state = .idle buf →
      (buf ≠ [] ∨ b.remaining = 0) → b.grows buf = false →
      PollStep s (.noBytes (b.put buf)) { s.copy f buf b with pc := .register (b.put buf) }
  | readExhausted {b : ReadBuf} {f : File} {max : ℕ} {j : Job (Except ErrorKind (List UInt8))} :
      s.pc = .reading b → s.file = .done (.ok f) → f.state = .busy max j → s.budget = 0 →
      PollStep s .readExhausted { s with pc := .register b, woken := true }
  | readPending {b : ReadBuf} {f : File} {max : ℕ} {j : Job (Except ErrorKind (List UInt8))} :
      s.pc = .reading b → s.file = .done (.ok f) → f.state = .busy max j → s.budget ≠ 0 →
      j.ready = false →
      PollStep s .readPending
        { s with
          file := .done (.ok { f with state := .busy max j.register })
          pc := .register b }
  | readReady {b : ReadBuf} {f : File} {max n : ℕ} {bs : List UInt8} :
      s.pc = .reading b → s.file = .done (.ok f) → f.state = .busy max (.complete (.ok bs)) →
      s.budget = n + 1 → b.grows bs = true →
      PollStep s (.readyOk (b.put bs) (bs.take b.remaining))
        { s.copy f bs b with pc := .idle (some .ok), budget := n }
  | readNothing {b : ReadBuf} {f : File} {max n : ℕ} {bs : List UInt8} :
      s.pc = .reading b → s.file = .done (.ok f) → f.state = .busy max (.complete (.ok bs)) →
      s.budget = n + 1 → b.grows bs = false →
      PollStep s (.noBytes (b.put bs))
        { s.copy f bs b with pc := .register (b.put bs), budget := n }
  | readFailed {b : ReadBuf} {f : File} {max n : ℕ} {e : ErrorKind} :
      s.pc = .reading b → s.file = .done (.ok f) → f.state = .busy max (.complete (.error e)) →
      s.budget = n + 1 →
      PollStep s (.readFailed e)
        { s with
          file := .done (.ok { f with state := .idle [] })
          pc := .idle (some (.err e))
          budget := n }
  | register {b : ReadBuf} : s.pc = .register b →
      PollStep s .register { s with pc := .pending b, waker := true }
  | returnPending {b : ReadBuf} : s.pc = .pending b →
      PollStep s (.returnPending b) { s with pc := .idle (some .pending) }

/-- The system calls made on the blocking pool, and their completion. -/
inductive PoolStep (s : Sys) : Label → Sys → Prop
  | runOpen {w : Bool} {c : List UInt8} :
      s.file = .future (.opening (.queued w)) → s.content = some c →
      PoolStep s (.runOpen (.ok ())) { s with file := .future (.opening (.ran (.ok ()) w)) }
  | runOpenMissing {w : Bool} : s.file = .future (.opening (.queued w)) → s.content = none →
      PoolStep s (.runOpen (.error .notFound))
        { s with file := .future (.opening (.ran (.error .notFound) w)) }
  | runOpenError {w : Bool} {e : ErrorKind} :
      s.file = .future (.opening (.queued w)) → e ≠ .notFound →
      PoolStep s (.runOpen (.error e))
        { s with file := .future (.opening (.ran (.error e) w)) }
  | runSeek {w : Bool} {c : List UInt8} :
      s.file = .future (.seeking (.queued w)) → s.content = some c →
      PoolStep s (.runSeek (.ok c.length))
        { s with file := .future (.seeking (.ran (.ok c.length) w)) }
  | runSeekError {w : Bool} {e : ErrorKind} :
      s.file = .future (.seeking (.queued w)) → e ≠ .notFound →
      PoolStep s (.runSeek (.error e))
        { s with file := .future (.seeking (.ran (.error e) w)) }
  -- a read may be short, but it is empty at the end of the file only
  | runRead {f : File} {max k : ℕ} {w : Bool} {c : List UInt8} :
      s.file = .done (.ok f) → f.state = .busy max (.queued w) → s.content = some c →
      k ≤ max → (k = 0 → c.length ≤ f.cursor) →
      PoolStep s (.runRead (.ok ((c.drop f.cursor).take k)))
        { s with
          file := .done (.ok
            { f with
              cursor := f.cursor + ((c.drop f.cursor).take k).length
              state := .busy max (.ran (.ok ((c.drop f.cursor).take k)) w) }) }
  | runReadError {f : File} {max : ℕ} {w : Bool} {e : ErrorKind} :
      s.file = .done (.ok f) → f.state = .busy max (.queued w) →
      PoolStep s (.runRead (.error e))
        { s with file := .done (.ok { f with state := .busy max (.ran (.error e) w) }) }
  | completeOpen {r : Except ErrorKind Unit} {w : Bool} :
      s.file = .future (.opening (.ran r w)) →
      PoolStep s .complete
        { s with file := .future (.opening (.complete r)), waking := s.waking + w.toNat }
  | completeSeek {r : Except ErrorKind ℕ} {w : Bool} :
      s.file = .future (.seeking (.ran r w)) →
      PoolStep s .complete
        { s with file := .future (.seeking (.complete r)), waking := s.waking + w.toNat }
  | completeRead {f : File} {max : ℕ} {r : Except ErrorKind (List UInt8)} {w : Bool} :
      s.file = .done (.ok f) → f.state = .busy max (.ran r w) →
      PoolStep s .complete
        { s with
          file := .done (.ok { f with state := .busy max (.complete r) })
          waking := s.waking + w.toNat }

/-- The steps of the process that writes the file. -/
inductive WriterStep (s : Sys) : Label → Sys → Prop
  | create : s.content = none →
      WriterStep s .create
        { s with content := some [], events := s.events ++ [some ⟨.create, true⟩] }
  | append {c bs : List UInt8} : s.content = some c → bs ≠ [] →
      WriterStep s (.append bs)
        { s with content := some (c ++ bs), events := s.events ++ [some ⟨.modify, true⟩] }

/-- The steps of the watcher's thread. -/
inductive WatcherStep (s : Sys) : Label → Sys → Prop
  | notice {e : Notice} : WatcherStep s (.notice e) { s with events := s.events ++ [e] }
  -- `if let Some(w) = waker.take()`
  | take {e : Notice} {es : List Notice} : s.events = e :: es → e.wanted = true →
      WatcherStep s (.callback e)
        { s with events := es, waker := false, waking := s.waking + s.waker.toNat }
  | ignore {e : Notice} {es : List Notice} : s.events = e :: es → e.wanted = false →
      WatcherStep s (.callback e) { s with events := es }
  | wake {n : ℕ} : s.waking = n + 1 →
      WatcherStep s .wake { s with waking := n, woken := true }

/-- A step of the system. -/
inductive Step (s : Sys) (a : Label) (s' : Sys) : Prop
  | poll : PollStep s a s' → Step s a s'
  | pool : PoolStep s a s' → Step s a s'
  | writer : WriterStep s a s' → Step s a s'
  | watcher : WatcherStep s a s' → Step s a s'

end CorustHackathon.TailingFile
