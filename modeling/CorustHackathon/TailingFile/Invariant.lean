import CorustHackathon.TailingFile.Step

/-! # The tailing file: invariants of every run

`Fits` says which states of the `MaybeDone` go with which place in `poll_read`: between two polls
nothing has been polled, or the file is open, or an error has been returned.  `Reads` says where
the bytes of the file are: those before the position that the seek returned are skipped, then come
the ones delivered, the ones that the last read has fetched, and the rest. -/

namespace CorustHackathon.TailingFile

/-- The `MaybeDone` between two polls, if the last one returned no error of the open. -/
def MaybeDone.Rests : MaybeDone → Prop
  | .future .fresh | .done (.ok _) => True
  | _ => False

/-- The states of the `MaybeDone` that go with a place in `poll_read`. -/
def Fits : Pc → MaybeDone → Prop
  | .idle (some (.err _)), m => m.Rests ∨ m = .gone
  | .idle _, m | .register _, m | .pending _, m => m.Rests
  | .loop _, m => m.Rests ∨ m = .gone ∨ ∃ e, m = .done (.error e)
  | .reading _, m => ∃ f, m = .done (.ok f)
  | .opening _, m => ∃ o, m = .future o
  | .panicked, m => m = .gone

/-- What the bytes of the file are, given the bytes delivered. -/
def Reads (content : Option (List UInt8)) (delivered : List UInt8) : MaybeDone → Prop
  | .future .fresh | .done (.error _) | .gone => delivered = []
  | .future (.opening j) => delivered = [] ∧ (j.result = some (.ok ()) → content ≠ none)
  | .future (.seeking j) => delivered = [] ∧
      ∃ c, content = some c ∧ ∀ p, j.result = some (.ok p) → p ≤ c.length
  | .done (.ok f) => ∃ skipped rest,
      content = some (skipped ++ (delivered ++ f.state.buffered) ++ rest) ∧
        skipped.length = f.start ∧
        f.cursor = f.start + (delivered ++ f.state.buffered).length

/-- The invariant of every run. -/
structure Inv (s : Sys) : Prop where
  fits : Fits s.pc s.file
  reads : Reads s.content s.delivered s.file

theorem Inv.init (c : Option (List UInt8)) : Inv (init c) := ⟨trivial, rfl⟩

/-! ### Places -/

theorem Fits.idle {r : Option Polled} {m : MaybeDone} (h : Fits (.idle r) m) :
    m.Rests ∨ m = .gone := by
  cases r with
  | none => exact .inl h
  | some p =>
      cases p with
      | err e => exact h
      | pending | ok => exact .inl h

/-- Away from `FileFut::poll`, an unfinished open has never been polled. -/
theorem Fits.fresh {p : Pc} {o : FileFut} (h : Fits p (.future o)) (hp : ∀ b, p ≠ .opening b) :
    o = .fresh := by
  have hr : (MaybeDone.future o).Rests := by
    cases p with
    | idle r => exact h.idle.resolve_right nofun
    | loop b => exact h.resolve_right (by rintro (h | ⟨_, h⟩) <;> cases h)
    | reading b => obtain ⟨f, h⟩ := h; cases h
    | opening b => exact absurd rfl (hp b)
    | register b | pending b => exact h
    | panicked => cases h
  cases o with
  | fresh => rfl
  | opening j | seeking j => exact hr.elim

theorem Fits.pollStep {s s' : Sys} {a : Label} (hF : Fits s.pc s.file) (h : PollStep s a s') :
    Fits s'.pc s'.file := by
  cases h with
  | begin hp =>
      rw [hp] at hF
      exact hF.idle.elim .inl fun hg => .inr (.inl hg)
  | matchOpened hp hf => exact ⟨_, hf⟩
  | takeError hp hf => exact .inr rfl
  | matchFuture hp hf => exact ⟨_, hf⟩
  | panic hp hf => exact hf
  | spawnOpen hp hf | openPending hp hf | seekPending hp hf | spawnSeek hp hf =>
      show Fits s.pc _
      rw [hp]
      exact ⟨_, rfl⟩
  | openExhausted | seekExhausted => exact hF
  | renew | copyReady | copyNothing | readPending | readReady | readNothing => trivial
  | openFailed | seekFailed => exact .inr (.inr ⟨_, rfl⟩)
  | opened | readFailed => exact .inl trivial
  | spawnRead hp hf =>
      show Fits s.pc _
      rw [hp]
      exact ⟨_, rfl⟩
  | readExhausted hp hf =>
      show MaybeDone.Rests s.file
      rw [hf]
      trivial
  | register hp => rwa [hp] at hF
  | returnPending hp => rwa [hp] at hF

/-- The pool turns an unfinished open into an unfinished open and a file into a file. -/
theorem PoolStep.file {s s' : Sys} {a : Label} (h : PoolStep s a s') :
    s'.pc = s.pc ∧ s'.content = s.content ∧ s'.delivered = s.delivered ∧
      s'.events = s.events ∧ s'.woken = s.woken ∧ s'.waker = s.waker ∧ s'.budget = s.budget ∧
      ((∃ o o', s.file = .future o ∧ o ≠ .fresh ∧ s'.file = .future o' ∧ o' ≠ .fresh) ∨
        ∃ f f', s.file = .done (.ok f) ∧ s'.file = .done (.ok f')) := by
  cases h with
  | runOpen hf | runOpenMissing hf | runOpenError hf | completeOpen hf | runSeek hf
  | runSeekError hf | completeSeek hf =>
      exact ⟨rfl, rfl, rfl, rfl, rfl, rfl, rfl, .inl ⟨_, _, hf, nofun, rfl, nofun⟩⟩
  | runRead hf | runReadError hf | completeRead hf =>
      exact ⟨rfl, rfl, rfl, rfl, rfl, rfl, rfl, .inr ⟨_, _, hf, rfl⟩⟩

theorem Fits.poolStep {s s' : Sys} {a : Label} (hF : Fits s.pc s.file) (h : PoolStep s a s') :
    Fits s'.pc s'.file := by
  obtain ⟨hp, -, -, -, -, -, -, hf⟩ := h.file
  rw [hp]
  rcases hf with ⟨o, o', hf, ho, hf', -⟩ | ⟨f, f', hf, hf'⟩
  · rw [hf] at hF
    rw [hf']
    cases hpc : s.pc with
    | opening b => exact ⟨_, rfl⟩
    | _ => exact absurd (hF.fresh (by simp [hpc])) ho
  · rw [hf] at hF
    rw [hf']
    cases hpc : s.pc with
    | idle r =>
        cases r with
        | none => trivial
        | some r =>
            cases r with
            | err e => exact .inl trivial
            | pending | ok => trivial
    | loop b => exact .inl trivial
    | reading b => exact ⟨_, rfl⟩
    | register b | pending b => trivial
    | opening b => rw [hpc] at hF; obtain ⟨o, h⟩ := hF; cases h
    | panicked => rw [hpc] at hF; cases hF

/-! ### Bytes -/

theorem Reads.copy {s : Sys} {f : File} {bs : List UInt8} {b : ReadBuf}
    (hR : Reads s.content s.delivered s.file) (hf : s.file = .done (.ok f))
    (hb : f.state.buffered = bs) :
    Reads (s.copy f bs b).content (s.copy f bs b).delivered (s.copy f bs b).file := by
  rw [hf] at hR
  obtain ⟨skipped, rest, hc, hs, hcur⟩ := hR
  have hsplit : s.delivered ++ f.state.buffered =
      s.delivered ++ bs.take b.remaining ++ bs.drop b.remaining := by
    rw [hb, List.append_assoc, List.take_append_drop]
  refine ⟨skipped, rest, ?_, hs, ?_⟩
  · rw [hsplit] at hc
    exact hc
  · rw [hsplit] at hcur
    exact hcur

theorem Reads.pollStep {s s' : Sys} {a : Label} (hR : Reads s.content s.delivered s.file)
    (h : PollStep s a s') : Reads s'.content s'.delivered s'.file := by
  cases h with
  | begin | matchOpened | matchFuture | panic | openExhausted | seekExhausted | readExhausted
  | register | returnPending => exact hR
  | takeError hp hf => rw [hf] at hR; exact hR
  | spawnOpen hp hf => rw [hf] at hR; exact ⟨hR, nofun⟩
  | openPending hp hf hn hj =>
      rw [hf] at hR
      exact ⟨hR.1, by simpa using hR.2⟩
  | spawnSeek hp hf =>
      rw [hf] at hR
      obtain ⟨c, hc⟩ := Option.ne_none_iff_exists'.mp (hR.2 rfl)
      exact ⟨hR.1, c, hc, nofun⟩
  | renew hp hf | openFailed hp hf | seekFailed hp hf => rw [hf] at hR; exact hR.1
  | seekPending hp hf hn hj =>
      rw [hf] at hR
      obtain ⟨hd, c, hc, hle⟩ := hR
      exact ⟨hd, c, hc, by simpa using hle⟩
  | @opened b p n hp hf hn =>
      rw [hf] at hR
      obtain ⟨hd, c, hc, hle⟩ := hR
      refine ⟨c.take p, c.drop p, ?_, ?_, ?_⟩
      · simp [hd, hc, FileState.buffered]
      · simpa using hle p rfl
      · simp [hd, FileState.buffered]
  | spawnRead hp hf hi =>
      rw [hf] at hR
      obtain ⟨skipped, rest, h⟩ := hR
      rw [hi] at h
      exact ⟨skipped, rest, h⟩
  | copyReady hp hf hi | copyNothing hp hf hi => exact hR.copy hf (by rw [hi]; rfl)
  | readPending hp hf hi hn hj =>
      rename_i f max j
      rw [hf] at hR
      obtain ⟨skipped, rest, h⟩ := hR
      have hb : (FileState.busy max j.register).buffered = f.state.buffered := by
        rw [hi]
        cases j with
        | queued w | complete r => rfl
        | ran r w => cases r <;> rfl
      refine ⟨skipped, rest, ?_⟩
      dsimp only
      rw [hb]
      exact h
  | readReady hp hf hi | readNothing hp hf hi => exact hR.copy hf (by rw [hi]; rfl)
  | readFailed hp hf hi =>
      rw [hf] at hR
      obtain ⟨skipped, rest, h⟩ := hR
      rw [hi] at h
      exact ⟨skipped, rest, h⟩

theorem Reads.poolStep {s s' : Sys} {a : Label} (hR : Reads s.content s.delivered s.file)
    (h : PoolStep s a s') : Reads s'.content s'.delivered s'.file := by
  cases h with
  | runOpen hf hc => rw [hf] at hR; exact ⟨hR.1, fun _ => by simp [hc]⟩
  | runOpenMissing hf hc => rw [hf] at hR; exact ⟨hR.1, nofun⟩
  | runOpenError hf => rw [hf] at hR; exact ⟨hR.1, nofun⟩
  | runSeek hf hc =>
      rw [hf] at hR
      refine ⟨hR.1, _, hc, fun p hp => ?_⟩
      cases hp
      exact le_rfl
  | runSeekError hf =>
      rw [hf] at hR
      obtain ⟨hd, c, hc, -⟩ := hR
      exact ⟨hd, c, hc, nofun⟩
  | @runRead f max k w c hf hi hc =>
      rw [hf] at hR
      obtain ⟨skipped, rest, hc', hs, hcur⟩ := hR
      rw [hi] at hc' hcur
      have hdrop : c.drop f.cursor = rest := by
        rw [Option.some.inj (hc.symm.trans hc'), hcur, ← hs, ← List.length_append]
        exact List.drop_left
      refine ⟨skipped, rest.drop k, ?_, hs, ?_⟩
      · simp [hdrop, FileState.buffered] at hc' ⊢
        exact hc'
      · simp [hdrop, FileState.buffered] at hcur ⊢
        omega
  | runReadError hf hi =>
      rw [hf] at hR
      obtain ⟨skipped, rest, h⟩ := hR
      rw [hi] at h
      exact ⟨skipped, rest, h⟩
  | completeOpen hf => rw [hf] at hR; exact hR
  | completeSeek hf => rw [hf] at hR; exact hR
  | completeRead hf hi =>
      rename_i f max r w
      rw [hf] at hR
      obtain ⟨skipped, rest, h⟩ := hR
      rw [hi] at h
      refine ⟨skipped, rest, ?_⟩
      cases r <;> exact h

theorem Reads.append {c bs d : List UInt8} {m : MaybeDone} (hR : Reads (some c) d m) :
    Reads (some (c ++ bs)) d m := by
  cases m with
  | future o =>
      cases o with
      | fresh => exact hR
      | opening j => exact ⟨hR.1, fun _ => nofun⟩
      | seeking j =>
          obtain ⟨hd, c', hc, hle⟩ := hR
          cases hc
          refine ⟨hd, _, rfl, fun p hp => (hle p hp).trans ?_⟩
          simp
  | done r =>
      cases r with
      | error e => exact hR
      | ok f =>
          obtain ⟨skipped, rest, hc, hs⟩ := hR
          refine ⟨skipped, rest ++ bs, ?_, hs⟩
          rw [Option.some.inj hc, List.append_assoc]
  | gone => exact hR

theorem Reads.create {d : List UInt8} {m : MaybeDone} (hR : Reads none d m) :
    Reads (some []) d m := by
  cases m with
  | future o =>
      cases o with
      | fresh => exact hR
      | opening j => exact ⟨hR.1, fun _ => nofun⟩
      | seeking j => obtain ⟨_, _, hc, _⟩ := hR; cases hc
  | done r =>
      cases r with
      | error e => exact hR
      | ok f => obtain ⟨_, _, hc, _⟩ := hR; cases hc
  | gone => exact hR

/-! ### Steps -/

theorem Inv.step {s s' : Sys} {a : Label} (hI : Inv s) (h : Step s a s') : Inv s' := by
  obtain ⟨hF, hR⟩ := hI
  cases h with
  | poll h => exact ⟨hF.pollStep h, hR.pollStep h⟩
  | pool h => exact ⟨hF.poolStep h, hR.poolStep h⟩
  | writer h =>
      cases h with
      | create hc => rw [hc] at hR; exact ⟨hF, hR.create⟩
      | append hc => rw [hc] at hR; exact ⟨hF, hR.append⟩
  | watcher h => cases h <;> exact ⟨hF, hR⟩

theorem Inv.of_run {c : Option (List UInt8)} {s : Sys} {tr : List Label}
    (h : Run Step (TailingFile.init c) tr s) : Inv s :=
  h.preserves (fun _ _ _ hI hs => hI.step hs) (.init c)

/-- The pool works for an open in `FileFut::poll` only. -/
theorem Inv.opening {s : Sys} (hI : Inv s) {o : FileFut} (hf : s.file = .future o)
    (ho : o ≠ .fresh) : ∃ b, s.pc = .opening b := by
  have hF := hI.fits
  rw [hf] at hF
  by_contra hp
  exact ho (hF.fresh fun b hb => hp ⟨b, hb⟩)

/-- In `FileFut::poll` there is an open that has not finished. -/
theorem Inv.opening_file {s : Sys} (hI : Inv s) {b : ReadBuf} (hp : s.pc = .opening b) :
    ∃ o, s.file = .future o := by
  have hF := hI.fits
  rw [hp] at hF
  exact hF

/-- Nothing is delivered before the file is open. -/
theorem Inv.undelivered {s : Sys} (hI : Inv s) (hf : ∀ f, s.file ≠ .done (.ok f)) :
    s.delivered = [] := by
  have hR := hI.reads
  cases hm : s.file with
  | future o =>
      rw [hm] at hR
      cases o with
      | fresh => exact hR
      | opening j | seeking j => exact hR.1
  | done r =>
      rw [hm] at hR
      cases r with
      | error e => exact hR
      | ok f => exact absurd hm (hf f)
  | gone =>
      rw [hm] at hR
      exact hR

/-- **The bytes delivered are a gap-free part of the file**, from the position that the seek
returned. -/
theorem Inv.delivered {s : Sys} (hI : Inv s) {f : File} (hf : s.file = .done (.ok f)) :
    ∃ c, s.content = some c ∧ s.delivered = (c.drop f.start).take s.delivered.length := by
  have hR := hI.reads
  rw [hf] at hR
  obtain ⟨skipped, rest, hc, hs, -⟩ := hR
  refine ⟨_, hc, ?_⟩
  rw [← hs, List.append_assoc, List.drop_left, List.append_assoc, List.take_left]

end CorustHackathon.TailingFile
