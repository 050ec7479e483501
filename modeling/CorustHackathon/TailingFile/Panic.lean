import CorustHackathon.TailingFile.Invariant

/-! # The panic of a poll after an error

A poll that finds the error of the open takes it out of the `MaybeDone`, and leaves `Gone`.  The
next poll does not tell `Gone` from an open that has not been polled, and polls it.  No other
history leads to a panic: what `take_output` unwraps is there. -/

namespace CorustHackathon.TailingFile

/-! ### The output of a `MaybeDone` -/

namespace MaybeDone

def outputMut : MaybeDone → Option (Except ErrorKind File)
  | done r => some r
  | _ => none

/-- `take_output`, with the `MaybeDone` that is left. -/
def takeOutput : MaybeDone → Option (Except ErrorKind File) × MaybeDone
  | done r => (some r, gone)
  | m => (none, m)

end MaybeDone

/-- The two calls of `unwrap` find an output, and an error in it. -/
theorem PollStep.unwraps {s s' : Sys} {e : ErrorKind} (h : PollStep s (.takeError e) s') :
    s.file.outputMut = some (.error e) ∧ s.file.takeOutput = (some (.error e), s'.file) := by
  cases h with
  | takeError hp hf =>
      rw [hf]
      exact ⟨rfl, rfl⟩

/-- What `match Pin::new(&mut this.file).output_mut()` finds decides how the poll goes on. -/
theorem PollStep.matches {s s' : Sys} {a : Label} {b : ReadBuf} (h : PollStep s a s')
    (hp : s.pc = .loop b) :
    (a = .matchOpened ∧ ∃ f, s.file.outputMut = some (.ok f)) ∨
      (∃ e, a = .takeError e ∧ s.file.outputMut = some (.error e)) ∨
      (a = .matchFuture ∧ s.file.outputMut = none ∧ s.file ≠ .gone) ∨
      (a = .panic ∧ s.file.outputMut = none ∧ s.file = .gone) := by
  cases h with
  | matchOpened hp' hf => exact .inl ⟨rfl, _, by rw [hf]; rfl⟩
  | takeError hp' hf => exact .inr (.inl ⟨_, rfl, by rw [hf]; rfl⟩)
  | matchFuture hp' hf => exact .inr (.inr (.inl ⟨rfl, by rw [hf]; rfl, by rw [hf]; nofun⟩))
  | panic hp' hf => exact .inr (.inr (.inr ⟨rfl, by rw [hf]; rfl, hf⟩))
  | begin hp' | spawnOpen hp' | openExhausted hp' | openPending hp' | spawnSeek hp' | renew hp'
  | openFailed hp' | seekExhausted hp' | seekPending hp' | opened hp' | seekFailed hp'
  | spawnRead hp' | copyReady hp' | copyNothing hp' | readExhausted hp' | readPending hp'
  | readReady hp' | readNothing hp' | readFailed hp' | register hp' | returnPending hp' =>
      cases hp.symm.trans hp'

/-! ### Where the panic is certain -/

/-- The poll that goes on is about to poll a `MaybeDone` without a future. -/
def Sys.MustPanic (s : Sys) : Prop := (∃ b, s.pc = .loop b) ∧ s.file = .gone

/-- The task has panicked, or cannot but do so. -/
def Sys.Panics (s : Sys) : Prop := s.pc = .panicked ∨ s.MustPanic

/-- The poll has one way to go on, and that one panics. -/
theorem Sys.MustPanic.only_panic {s : Sys} (h : s.MustPanic) (a : Label) (s' : Sys) :
    PollStep s a s' ↔ a = .panic ∧ s' = { s with pc := .panicked } := by
  obtain ⟨⟨b, hp⟩, hf⟩ := h
  constructor
  · intro hs
    rcases hs.matches hp with ⟨-, f, ho⟩ | ⟨e, -, ho⟩ | ⟨-, -, hn⟩ | ⟨rfl, -, -⟩
    · simp [hf, MaybeDone.outputMut] at ho
    · simp [hf, MaybeDone.outputMut] at ho
    · exact absurd hf hn
    · cases hs with
      | panic => exact ⟨rfl, rfl⟩
  · rintro ⟨rfl, rfl⟩
    exact .panic hp hf

/-- Only an error that is taken leaves `Gone`, and nothing comes after `Gone`. -/
theorem Step.gone {s s' : Sys} {a : Label} (h : Step s a s') :
    s'.file = .gone ↔ s.file = .gone ∨ ∃ e, a = .takeError e := by
  cases h with
  | poll h =>
      cases h with
      | takeError => simp
      | spawnOpen hp hf | openPending hp hf | spawnSeek hp hf | renew hp hf | openFailed hp hf
      | seekPending hp hf | opened hp hf | seekFailed hp hf | spawnRead hp hf | copyReady hp hf
      | copyNothing hp hf | readPending hp hf | readReady hp hf | readNothing hp hf
      | readFailed hp hf => simp [hf, Sys.copy]
      | begin | matchOpened | matchFuture | panic | openExhausted | seekExhausted
      | readExhausted | register | returnPending => simp
  | pool h =>
      cases h with
      | runOpen hf | runOpenMissing hf | runOpenError hf | runSeek hf | runSeekError hf
      | runRead hf | runReadError hf | completeOpen hf | completeSeek hf | completeRead hf =>
          simp [hf]
  | writer h => cases h <;> simp
  | watcher h => cases h <;> simp

theorem Sys.Panics.gone {s : Sys} (hI : Inv s) (h : s.Panics) : s.file = .gone := by
  rcases h with hp | h
  · have hF := hI.fits
    rw [hp] at hF
    exact hF
  · exact h.2

/-- Only a poll that begins with `Gone` comes to panic. -/
theorem Step.panics {s s' : Sys} {a : Label} (hI : Inv s) (h : Step s a s') :
    s'.Panics ↔ s.Panics ∨ ((∃ n b, a = .begin n b) ∧ s.file = .gone) := by
  cases h with
  | poll h =>
      cases h with
      | begin hp => simp [Sys.Panics, Sys.MustPanic, hp]
      | panic hp hf => simp [Sys.Panics, Sys.MustPanic, hp, hf]
      | matchOpened hp hf | takeError hp hf | matchFuture hp hf | spawnOpen hp hf
      | openPending hp hf | spawnSeek hp hf | renew hp hf | openFailed hp hf | seekPending hp hf
      | opened hp hf | seekFailed hp hf | spawnRead hp hf | copyReady hp hf | copyNothing hp hf
      | readPending hp hf | readReady hp hf | readNothing hp hf | readFailed hp hf
      | openExhausted hp hf | seekExhausted hp hf | readExhausted hp hf =>
          simp [Sys.Panics, Sys.MustPanic, hp, hf]
      | register hp | returnPending hp => simp [Sys.Panics, Sys.MustPanic, hp]
  | pool h =>
      have hs' := Inv.step hI (.pool h)
      obtain ⟨-, -, -, -, -, -, -, hf⟩ := h.file
      have hne : s.file ≠ .gone ∧ s'.file ≠ .gone := by
        rcases hf with ⟨o, o', hf, -, hf', -⟩ | ⟨f, f', hf, hf'⟩ <;> simp [hf, hf']
      constructor
      · intro hp
        exact absurd (hp.gone hs') hne.2
      · rintro (hp | ⟨-, hg⟩)
        · exact absurd (hp.gone hI) hne.1
        · exact absurd hg hne.1
  | writer h => cases h <;> simp [Sys.Panics, Sys.MustPanic]
  | watcher h => cases h <;> simp [Sys.Panics, Sys.MustPanic]

/-- A poll has returned the error of the open. -/
def Failed (tr : List Label) : Prop := ∃ e, .takeError e ∈ tr

/-- A poll was made after one that returned the error of the open. -/
def PolledAfterError (tr : List Label) : Prop :=
  ∃ tr₁ n b tr₂, tr = tr₁ ++ .begin n b :: tr₂ ∧ Failed tr₁

theorem failed_snoc {tr : List Label} {a : Label} :
    Failed (tr ++ [a]) ↔ Failed tr ∨ ∃ e, a = .takeError e := by
  simp only [Failed, List.mem_append, List.mem_singleton, exists_or, eq_comm]

theorem polledAfterError_snoc {tr : List Label} {a : Label} :
    PolledAfterError (tr ++ [a]) ↔ PolledAfterError tr ∨ ((∃ n b, a = .begin n b) ∧ Failed tr) := by
  constructor
  · rintro ⟨tr₁, n, b, tr₂, he, hf⟩
    rcases snoc_eq_append_cons.mp he with ⟨-, rfl, ha⟩ | ⟨tr₃, -, rfl⟩
    · exact .inr ⟨⟨n, b, ha⟩, hf⟩
    · exact .inl ⟨tr₁, n, b, tr₃, rfl, hf⟩
  · rintro (⟨tr₁, n, b, tr₂, rfl, hf⟩ | ⟨⟨n, b, rfl⟩, hf⟩)
    · exact ⟨tr₁, n, b, tr₂ ++ [a], by simp, hf⟩
    · exact ⟨tr, n, b, [], rfl, hf⟩

theorem gone_iff {c : Option (List UInt8)} {tr : List Label} {s : Sys}
    (h : Run Step (init c) tr s) : s.file = .gone ↔ Failed tr := by
  induction h with
  | nil => simp [init, Failed]
  | snoc hr hs ih => rw [hs.gone, failed_snoc, ih]

theorem panics_iff {c : Option (List UInt8)} {tr : List Label} {s : Sys}
    (h : Run Step (init c) tr s) : s.Panics ↔ PolledAfterError tr := by
  induction h with
  | nil => simp [Sys.Panics, Sys.MustPanic, init, PolledAfterError]
  | snoc hr hs ih => rw [hs.panics (Inv.of_run hr), polledAfterError_snoc, ih, gone_iff hr]

/-- **`poll_read` panics exactly where it is polled after an error of the open**: in every run, the
task has panicked or is about to exactly if a poll was made after one that returned the error of
the open or of its seek.  A poll that is about to panic cannot do anything else, and what a poll
that takes an error unwraps is there. -/
theorem poll_read_panics_iff {c : Option (List UInt8)} {tr : List Label} {s : Sys}
    (h : Run Step (init c) tr s) :
    (s.Panics ↔ PolledAfterError tr) ∧
      (s.MustPanic → ∀ a s', PollStep s a s' ↔ a = .panic ∧ s' = { s with pc := .panicked }) ∧
      ∀ e s', PollStep s (.takeError e) s' →
        s.file.outputMut = some (.error e) ∧
          s.file.takeOutput = (some (.error e), s'.file) :=
  ⟨panics_iff h, fun hm a s' => hm.only_panic a s', fun _ _ hs => hs.unwraps⟩

/-- The first poll of a tail returns the error `e` of the open, and a second one begins. -/
theorem run_to_second_poll (e : ErrorKind) (he : e ≠ .notFound) (b : ReadBuf) : ∃ tr s,
    Run Step (init none) tr s ∧ s.pc = .loop b ∧ s.file = .gone := by
  have failed :=
    (.nil : Run Step (init none) [] (init none))
      |>.snoc (.poll (.begin (n := 1) (b := b) rfl))
      |>.snoc (.poll (.matchFuture rfl rfl))
      |>.snoc (.poll (.spawnOpen rfl rfl))
      |>.snoc (.pool (.runOpenError rfl he))
      |>.snoc (.pool (.completeOpen rfl))
      |>.snoc (.poll (.openFailed rfl rfl he rfl))
      |>.snoc (.poll (.takeError rfl rfl))
  exact ⟨_, _, failed.snoc (.poll (.begin (n := 1) (b := b) rfl)), rfl, rfl⟩

/-- A second poll after the error is one that panics. -/
theorem poll_read_panics_again : ∃ tr s,
    Run Step (init none) tr s ∧ s.Panics ∧ PolledAfterError tr := by
  obtain ⟨tr, s, hr, hp, hf⟩ := run_to_second_poll (.other 13) nofun ⟨[], 1, by decide⟩
  have hpanics : s.Panics := .inr ⟨⟨_, hp⟩, hf⟩
  exact ⟨tr, s, hr, hpanics, (poll_read_panics_iff hr).1.mp hpanics⟩

/-- Two polls: the open fails for want of permission, and the second poll panics. -/
theorem poll_read_panics : ¬ ∀ c tr s, Run Step (init c) tr s → s.pc ≠ .panicked := by
  intro hall
  obtain ⟨tr, s, hr, hp, hf⟩ := run_to_second_poll (.other 13) nofun ⟨[], 1, by decide⟩
  exact hall _ _ _ (hr.snoc (.poll (.panic hp hf))) rfl

end CorustHackathon.TailingFile
