import CorustHackathon.TailingFile.Invariant

/-! # The first byte of a file created later

The open that succeeds seeks to the end of the file.  What the file holds by then is skipped, also
where the file did not exist when the tail started: the bytes delivered are a prefix of the file
exactly where every seek finds the file empty. -/

namespace CorustHackathon.TailingFile

namespace Sys

/-- The bytes delivered are the first bytes of the file. -/
def Prefix (s : Sys) : Prop := s.delivered <+: s.content.getD []

/-- The condition on a step: a seek finds the file empty, or belongs to a poll that never returns
for want of budget. -/
def SeeksEmpty (s : Sys) : Label → Prop
  | .runSeek (.ok _) => s.content = some [] ∨ s.budget = 0
  | _ => True

/-- The file was empty when the seek ran. -/
def AtStart (s : Sys) : Prop :=
  match s.file with
  | .future (.seeking j) => ∀ p, j.result = some (.ok p) → p = 0 ∨ s.budget = 0
  | .done (.ok f) => f.start = 0
  | _ => True

end Sys

/-! ### Every seek finds the file empty -/

theorem AtStart.pollStep {s s' : Sys} {a : Label} (hI : Inv s) (hS : s.AtStart)
    (h : PollStep s a s') : s'.AtStart := by
  unfold Sys.AtStart at hS ⊢
  cases h with
  | begin hp =>
      have hF := hI.fits
      rw [hp] at hF
      dsimp only
      cases hf : s.file with
      | future o =>
          rw [hf] at hF
          rw [hF.fresh nofun]
          trivial
      | done r =>
          rw [hf] at hS
          cases r <;> exact hS
      | gone => trivial
  | matchOpened | matchFuture | panic | openExhausted | seekExhausted | readExhausted | register
  | returnPending => exact hS
  | takeError | spawnOpen | openPending | renew | openFailed | seekFailed => trivial
  | spawnSeek => exact nofun
  | seekPending hp hf =>
      rw [hf] at hS
      simpa using hS
  | opened hp hf hb =>
      rw [hf] at hS
      exact (hS _ rfl).resolve_right (by omega)
  | spawnRead hp hf | copyReady hp hf | copyNothing hp hf | readPending hp hf | readReady hp hf
  | readNothing hp hf | readFailed hp hf =>
      rw [hf] at hS
      exact hS

theorem AtStart.poolStep {s s' : Sys} {a : Label} (hS : s.AtStart) (h : PoolStep s a s')
    (ht : s.SeeksEmpty a) : s'.AtStart := by
  unfold Sys.AtStart at hS ⊢
  cases h with
  | runOpen | runOpenMissing | runOpenError | completeOpen => trivial
  | runSeek hf hc =>
      intro p hp
      cases hp
      refine ht.imp_left fun he => ?_
      cases hc.symm.trans he
      rfl
  | runSeekError => exact nofun
  | completeSeek hf =>
      rw [hf] at hS
      exact hS
  | runRead hf | runReadError hf | completeRead hf =>
      rw [hf] at hS
      exact hS

theorem AtStart.step {s s' : Sys} {a : Label} (hI : Inv s) (hS : s.AtStart) (h : Step s a s')
    (ht : s.SeeksEmpty a) : s'.AtStart := by
  cases h with
  | poll h => exact AtStart.pollStep hI hS h
  | pool h => exact AtStart.poolStep hS h ht
  | writer h => cases h <;> exact hS
  | watcher h => cases h <;> exact hS

/-- The bytes of a file that was empty when the seek ran are delivered from the first one. -/
theorem Inv.first_bytes {s : Sys} (hI : Inv s) (hS : s.AtStart) : s.Prefix := by
  unfold Sys.Prefix
  unfold Sys.AtStart at hS
  by_cases hf : ∃ f, s.file = .done (.ok f)
  · obtain ⟨f, hf⟩ := hf
    obtain ⟨c, hc, hd⟩ := hI.delivered hf
    rw [hf] at hS
    rw [hd, hc, hS]
    exact List.take_prefix _ _
  · simp [hI.undelivered fun f h => hf ⟨f, h⟩]

/-! ### A seek past the first byte -/

/-- A run from here delivers bytes that are not the first ones of the file. -/
abbrev CanSkip (s : Sys) : Prop := CanReach Step (fun s => ¬ s.Prefix) s

/-- The file holds `y` first, `x` is the byte that was read first. -/
structure Skips (s : Sys) (x y : UInt8) (c : List UInt8) : Prop where
  ne : x ≠ y
  content : s.content = some (y :: c)
  delivered : s.delivered = []

/-- The task has room for the byte that was read. -/
theorem Skips.canSkip_of_reading {s : Sys} {x y : UInt8} {c : List UInt8} {b : ReadBuf} {f : File}
    {max : ℕ} (h : Skips s x y c) (hp : s.pc = .reading b) (hf : s.file = .done (.ok f))
    (hi : f.state = .busy max (.complete (.ok [x]))) (hb : s.budget ≠ 0) (hr : b.remaining ≠ 0) :
    CanSkip s := by
  obtain ⟨n, hn⟩ := Nat.exists_eq_succ_of_ne_zero hb
  obtain ⟨m, hm⟩ := Nat.exists_eq_succ_of_ne_zero hr
  have hg : b.grows [x] = true := (b.grows_iff [x]).mpr ⟨List.cons_ne_nil x [], hr⟩
  refine .cons (.poll (.readReady hp hf hi hn hg)) (.here fun hpre => ?_)
  simp only [Sys.Prefix, Sys.copy, h.delivered, h.content, hm, List.nil_append,
    List.take_succ_cons, Option.getD_some, List.cons_prefix_cons] at hpre
  exact h.ne hpre.1

/-- The next poll finds the byte. -/
theorem Skips.canSkip_of_register {s : Sys} {x y : UInt8} {c : List UInt8} {b : ReadBuf} {f : File}
    {max : ℕ} (h : Skips s x y c) (hp : s.pc = .register b) (hf : s.file = .done (.ok f))
    (hi : f.state = .busy max (.complete (.ok [x]))) : CanSkip s := by
  refine .cons (.poll (.register hp)) (.cons (.poll (.returnPending rfl)) ?_)
  refine .cons (.poll (.begin (n := 1) (b := ⟨[], 1, by decide⟩) rfl)) ?_
  refine .cons (.poll (.matchOpened rfl hf)) ?_
  exact canSkip_of_reading ⟨h.ne, h.content, h.delivered⟩ rfl hf hi Nat.one_ne_zero Nat.one_ne_zero

/-- The task has room, and the byte is all that is left of the file. -/
theorem Skips.canSkip_of_idle {s : Sys} {x y : UInt8} {c : List UInt8} {b : ReadBuf} {f : File}
    (h : Skips s x y (c ++ [x])) (hp : s.pc = .reading b) (hf : s.file = .done (.ok f))
    (hi : f.state = .idle []) (hcur : f.cursor = c.length + 1) (hr : b.remaining ≠ 0) :
    CanSkip s := by
  have hx : ((y :: (c ++ [x])).drop f.cursor).take 1 = [x] := by simp [hcur]
  have hrun := @PoolStep.runRead
    { s with file := .done (.ok { f with state := .busy 1 (.queued false) }) } _ 1 1 false _
    rfl rfl h.content le_rfl nofun
  rw [hx] at hrun
  refine .cons (.poll (.spawnRead hp hf hi Nat.one_pos (Nat.one_le_iff_ne_zero.mpr hr))) ?_
  refine .cons (.pool hrun) (.cons (.pool (.completeRead rfl rfl)) ?_)
  by_cases hb : s.budget = 0
  · exact .cons (.poll (.readExhausted hp rfl rfl hb))
      (canSkip_of_register ⟨h.ne, h.content, h.delivered⟩ rfl rfl rfl)
  · exact canSkip_of_reading ⟨h.ne, h.content, h.delivered⟩ hp rfl rfl hb hr

/-- The file has just been opened at its end; a byte that is not the first one is appended. -/
theorem canSkip_of_opened {s : Sys} {y : UInt8} {c : List UInt8} {b : ReadBuf}
    (hp : s.pc = .loop b) (hc : s.content = some (y :: c)) (hd : s.delivered = [])
    (hf : s.file = .done (.ok ⟨c.length + 1, c.length + 1, .idle []⟩)) : CanSkip s := by
  obtain ⟨x, hx⟩ : ∃ x : UInt8, x ≠ y := by
    by_cases hy : y = 0
    · exact ⟨1, by rw [hy]; decide⟩
    · exact ⟨0, Ne.symm hy⟩
  refine .cons (.writer (.append hc (List.cons_ne_nil x []))) ?_
  refine .cons (.poll (.matchOpened hp hf)) ?_
  by_cases hr : b.remaining = 0
  · -- a poll without room says `Pending`, and the next one has room
    refine .cons (.poll (.copyNothing rfl hf rfl (.inr hr) b.grows_nil)) ?_
    refine .cons (.poll (.register rfl)) (.cons (.poll (.returnPending rfl)) ?_)
    refine .cons (.poll (.begin (n := 1) (b := ⟨[], 1, by decide⟩) rfl)) ?_
    refine .cons (.poll (.matchOpened rfl rfl)) ?_
    exact Skips.canSkip_of_idle (x := x) ⟨hx, rfl, by simp [Sys.copy, hd]⟩ rfl rfl
      (by simp) rfl Nat.one_ne_zero
  · exact Skips.canSkip_of_idle (x := x) ⟨hx, rfl, hd⟩ rfl hf rfl rfl hr

/-- **A seek past the first byte can be followed by a delivery that is no prefix.** -/
theorem canSkip_of_not_seeksEmpty {s s' : Sys} {a : Label} (hI : Inv s) (h : Step s a s')
    (ht : ¬ s.SeeksEmpty a) : CanSkip s' := by
  cases h with
  | pool h =>
      cases h
      case runSeek w c hf hc =>
        obtain ⟨b, hp⟩ := hI.opening hf nofun
        have hR := hI.reads
        rw [hf] at hR
        simp only [Sys.SeeksEmpty, hc, Option.some.injEq, not_or] at ht
        obtain ⟨hne, hb⟩ := ht
        obtain ⟨n, hn⟩ := Nat.exists_eq_succ_of_ne_zero hb
        obtain ⟨y, c, rfl⟩ := List.exists_cons_of_ne_nil hne
        refine .cons (.pool (.completeSeek rfl)) (.cons (.poll (.opened hp rfl hn)) ?_)
        exact canSkip_of_opened rfl hc hR.1 rfl
      all_goals exact absurd trivial ht
  | poll h => cases h <;> exact absurd trivial ht
  | writer h => cases h <;> exact absurd trivial ht
  | watcher h => cases h <;> exact absurd trivial ht

/-- **A file created later is delivered from its first byte exactly where every seek finds it
empty**: along a run of such steps the bytes delivered are always a prefix of the file, and a
seek that finds bytes can be followed by a delivery that is not. -/
theorem delivered_from_first_byte (tr : List Label) (s : Sys) :
    (Run (Guarded Step Sys.SeeksEmpty) (init none) tr s → s.Prefix) ∧
      (Run Step (init none) tr s → ∀ a s', Step s a s' → ¬ s.SeeksEmpty a →
        CanReach Step (fun s => ¬ s.Prefix) s') := by
  constructor
  · intro h
    have hI : Inv s ∧ s.AtStart :=
      h.guarded (.init none) trivial (fun _ _ _ hI hs => hI.step hs)
        fun _ _ _ hI hS hs ht => AtStart.step hI hS hs ht
    exact hI.1.first_bytes hI.2
  · intro hr a s' hs ht
    exact canSkip_of_not_seeksEmpty (Inv.of_run hr) hs ht

/-- The first poll opens the file while it is empty. -/
theorem delivered_from_first_byte_created : ∃ tr s,
    Run (Guarded Step Sys.SeeksEmpty) (init none) tr s ∧ s.delivered = [1] ∧
      s.content = some [1, 2] ∧ s.Prefix := by
  have opened :=
    (.nil : Run (Guarded Step Sys.SeeksEmpty) (init none) [] (init none))
      |>.snoc ⟨.writer (.create rfl), trivial⟩
      |>.snoc ⟨.poll (.begin (n := 3) (b := ⟨[], 1, by decide⟩) rfl), trivial⟩
      |>.snoc ⟨.poll (.matchFuture rfl rfl), trivial⟩
      |>.snoc ⟨.poll (.spawnOpen rfl rfl), trivial⟩
      |>.snoc ⟨.pool (.runOpen rfl rfl), trivial⟩
      |>.snoc ⟨.pool (.completeOpen rfl), trivial⟩
      |>.snoc ⟨.poll (.spawnSeek rfl rfl rfl), trivial⟩
      |>.snoc ⟨.pool (.runSeek rfl rfl), .inl rfl⟩
      |>.snoc ⟨.pool (.completeSeek rfl), trivial⟩
      |>.snoc ⟨.poll (.opened rfl rfl rfl), trivial⟩
  have read := opened
      |>.snoc ⟨.writer (.append rfl (List.cons_ne_nil 1 [2])), trivial⟩
      |>.snoc ⟨.poll (.matchOpened rfl rfl), trivial⟩
      |>.snoc ⟨.poll (.spawnRead rfl rfl rfl Nat.one_pos le_rfl), trivial⟩
      |>.snoc ⟨.pool (.runRead (k := 1) rfl rfl rfl le_rfl nofun), trivial⟩
      |>.snoc ⟨.pool (.completeRead rfl rfl), trivial⟩
      |>.snoc ⟨.poll (.readReady rfl rfl rfl rfl rfl), trivial⟩
  exact ⟨_, _, read, rfl, rfl, (delivered_from_first_byte _ _).1 read⟩

/-- The file is created with one byte and opened; the next byte is the first one delivered. -/
theorem first_byte_skipped : ¬ ∀ tr s, Run Step (init none) tr s → s.Prefix := by
  intro hall
  have opened :=
    (.nil : Run Step (init none) [] (init none))
      |>.snoc (.poll (.begin (n := 3) (b := ⟨[], 1, by decide⟩) rfl))
      |>.snoc (.poll (.matchFuture rfl rfl))
      |>.snoc (.writer (.create rfl))
      |>.snoc (.writer (.append rfl (List.cons_ne_nil 1 [])))
      |>.snoc (.poll (.spawnOpen rfl rfl))
      |>.snoc (.pool (.runOpen rfl rfl))
      |>.snoc (.pool (.completeOpen rfl))
      |>.snoc (.poll (.spawnSeek rfl rfl rfl))
      |>.snoc (.pool (.runSeek rfl rfl))
      |>.snoc (.pool (.completeSeek rfl))
      |>.snoc (.poll (.opened rfl rfl rfl))
  have read := opened
      |>.snoc (.writer (.append rfl (List.cons_ne_nil 2 [])))
      |>.snoc (.poll (.matchOpened rfl rfl))
      |>.snoc (.poll (.spawnRead rfl rfl rfl Nat.one_pos le_rfl))
      |>.snoc (.pool (.runRead (k := 1) rfl rfl rfl le_rfl nofun))
      |>.snoc (.pool (.completeRead rfl rfl))
      |>.snoc (.poll (.readReady rfl rfl rfl rfl rfl))
  have hpre : ([2] : List UInt8) <+: [1, 2] := hall _ _ read
  simp at hpre

end CorustHackathon.TailingFile
