import CorustHackathon.TailingFile.Wakeup

/-! # The lost wake-up

A step that is not timely is the start of a run to a lost wake-up: let nothing else happen, finish
the poll that is going on, and let the task act upon the old answer. -/

namespace CorustHackathon.TailingFile

/-- A lost wake-up can be reached from here. -/
abbrev CanLose (s : Sys) : Prop := CanReach Step Sys.Lost s

/-! ### The task alone -/

theorem canLose_of_pending {s : Sys} {b : ReadBuf} (hp : s.pc = .pending b)
    (hq : s.file.inFlight = false) (hw : s.waking = 0) (hk : s.woken = false) (hs : s.Settled)
    (hu : s.Unseen) : CanLose s :=
  .cons (.poll (.returnPending hp)) (.here ⟨rfl, hs, hq, hw, hk, hu⟩)

theorem canLose_of_register {s : Sys} {b : ReadBuf} (hp : s.pc = .register b)
    (hq : s.file.quiet = true) (hw : ¬ s.Waking) (hs : s.Settled) (hu : s.Unseen) :
    CanLose s := by
  simp only [Sys.Waking, not_or, Nat.not_lt, Nat.le_zero, Bool.not_eq_true] at hw
  exact .cons (.poll (.register hp))
    (canLose_of_pending rfl (MaybeDone.landed_of_quiet hq) hw.1 hw.2 hs hu)

/-- The task looks at an answer of the pool without bytes. -/
theorem canLose_of_reading {s : Sys} {b : ReadBuf} {f : File} {max : ℕ} (hp : s.pc = .reading b)
    (hf : s.file = .done (.ok f)) (hi : f.state = .busy max (.complete (.ok [])))
    (hb : s.budget ≠ 0) (hw : ¬ s.Waking) (hs : s.Settled) (hu : s.Unseen) : CanLose s := by
  obtain ⟨n, hn⟩ := Nat.exists_eq_succ_of_ne_zero hb
  exact .cons (.poll (.readNothing hp hf hi hn b.grows_nil))
    (canLose_of_register rfl rfl hw hs ((Sys.unseen_copy hf b.grows_nil).mpr hu))

/-! ### An old answer of the pool -/

/-- A read has found no bytes where there are some by now, and all events are delivered. -/
structure Stale (s : Sys) (f : File) (max : ℕ) (j : Job (Except ErrorKind (List UInt8))) :
    Prop where
  file : s.file = .done (.ok f)
  state : f.state = .busy max j
  result : j.result = some (.ok [])
  settled : s.Settled
  unseen : s.Unseen

/-- After the completion of the read and all calls of `wake`, the next poll loses the wake-up. -/
theorem Stale.canLose_of_complete {s : Sys} {f : File} {max : ℕ} {r : Option Polled}
    (h : Stale s f max (.complete (.ok []))) (hp : s.pc = .idle r) : CanLose s := by
  cases hn : s.waking with
  | zero =>
      refine .cons (.poll (.begin (n := 1) (b := ⟨[], 1, by decide⟩) hp)) ?_
      refine .cons (.poll (.matchOpened rfl h.file)) ?_
      exact canLose_of_reading rfl h.file h.state Nat.one_ne_zero (by simp [Sys.Waking, hn])
        h.settled h.unseen
  | succ n =>
      refine .cons (.watcher (.wake hn)) ?_
      exact Stale.canLose_of_complete ⟨h.file, h.state, h.result, h.settled, h.unseen⟩ hp
termination_by s.waking

theorem Stale.canLose_of_idle {s : Sys} {f : File} {max : ℕ}
    {j : Job (Except ErrorKind (List UInt8))} {r : Option Polled} (h : Stale s f max j)
    (hp : s.pc = .idle r) : CanLose s := by
  cases j with
  | queued w => cases h.result
  | complete a =>
      cases h.result
      exact h.canLose_of_complete hp
  | ran a w =>
      cases h.result
      refine .cons (.pool (.completeRead h.file h.state)) ?_
      exact Stale.canLose_of_complete
        ⟨rfl, rfl, rfl, h.settled, h.unseen.of_opened rfl rfl rfl h.file rfl⟩ hp

theorem Stale.canLose_of_pending {s : Sys} {f : File} {max : ℕ}
    {j : Job (Except ErrorKind (List UInt8))} {b : ReadBuf} (h : Stale s f max j)
    (hp : s.pc = .pending b) : CanLose s :=
  .cons (.poll (.returnPending hp))
    (Stale.canLose_of_idle ⟨h.file, h.state, h.result, h.settled, h.unseen⟩ rfl)

theorem Stale.canLose_of_register {s : Sys} {f : File} {max : ℕ}
    {j : Job (Except ErrorKind (List UInt8))} {b : ReadBuf} (h : Stale s f max j)
    (hp : s.pc = .register b) : CanLose s :=
  .cons (.poll (.register hp))
    (Stale.canLose_of_pending ⟨h.file, h.state, h.result, h.settled, h.unseen⟩ rfl)

/-- A poll that cannot act upon the answer yet leaves it to the next one. -/
theorem Stale.canLose_of_reading {s : Sys} {f : File} {max : ℕ}
    {j : Job (Except ErrorKind (List UInt8))} {b : ReadBuf} (h : Stale s f max j)
    (hp : s.pc = .reading b) (hr : s.budget = 0 ∨ j.ready = false) : CanLose s := by
  by_cases hb : s.budget = 0
  · exact .cons (.poll (.readExhausted hp h.file h.state hb))
      (Stale.canLose_of_register ⟨h.file, h.state, h.result, h.settled, h.unseen⟩ rfl)
  · refine .cons (.poll (.readPending hp h.file h.state hb (hr.resolve_left hb))) ?_
    exact Stale.canLose_of_register ⟨rfl, rfl, by simpa using h.result, h.settled,
      h.unseen.of_opened rfl rfl rfl h.file rfl⟩ rfl

theorem Stale.canLose {s : Sys} {f : File} {max : ℕ}
    {j : Job (Except ErrorKind (List UInt8))} (hI : Inv s) (h : Stale s f max j)
    (hh : ¬ s.Heard s.Waking) : CanLose s := by
  -- in `File::poll_read` the answer is acted upon if it is there and the budget allows it
  have hread : ∀ b s', s'.pc = .reading b → Stale s' f max j → s'.budget = s.budget →
      ¬ (j.ready = true ∧ s.budget ≠ 0 ∧ s'.Waking) → CanLose s' := by
    intro b s' hp h hb hn
    by_cases hr : s.budget = 0 ∨ j.ready = false
    · exact h.canLose_of_reading hp (hb ▸ hr)
    · simp only [not_or, Bool.not_eq_false] at hr
      have hw : ¬ s'.Waking := fun hw => hn ⟨hr.2, hr.1, hw⟩
      obtain ⟨a, rfl⟩ : ∃ a, j = .complete a := by
        cases j <;> simp_all [Job.ready]
      cases h.result
      exact TailingFile.canLose_of_reading hp h.file h.state (hb ▸ hr.1) hw h.settled h.unseen
  have hF := hI.fits
  rw [h.file] at hF
  have hready : s.file.inFlight = false ↔ j.ready = true := by
    simp [h.file, MaybeDone.inFlight, h.state, FileState.inFlight]
  cases hp : s.pc with
  | idle r => exact h.canLose_of_idle hp
  | pending b => exact h.canLose_of_pending hp
  | register b => exact h.canLose_of_register hp
  | loop b =>
      rw [Sys.Heard, hp] at hh
      refine .cons (.poll (.matchOpened hp h.file)) ?_
      exact hread b _ rfl ⟨h.file, h.state, h.result, h.settled, h.unseen⟩ rfl
        fun hw => hh ⟨hready.mpr hw.1, hw.2⟩
  | reading b =>
      rw [Sys.Heard, hp] at hh
      exact hread b s hp h rfl fun hw => hh ⟨hready.mpr hw.1, hw.2⟩
  | opening b => rw [hp] at hF; obtain ⟨o, ho⟩ := hF; cases ho
  | panicked => rw [hp] at hF; cases hF

/-- An open has found nothing where there is a file by now. -/
theorem canLose_of_missing {s : Sys} {b : ReadBuf} {j : Job (Except ErrorKind Unit)}
    (hp : s.pc = .opening b) (hf : s.file = .future (.opening j))
    (hr : j.result = some (.error .notFound)) (hj : j.joins = false) (hb : s.budget ≠ 0)
    (hw : ¬ s.Waking) (hs : s.Settled) (hu : s.Unseen) : CanLose s := by
  obtain ⟨n, hn⟩ := Nat.exists_eq_succ_of_ne_zero hb
  cases j with
  | queued w => cases hr
  | complete a =>
      cases hr
      exact .cons (.poll (.renew hp hf hn))
        (canLose_of_register rfl rfl hw hs (hu.of_future rfl rfl))
  | ran a w =>
      cases hr
      cases hj
      refine .cons (.pool (.completeOpen hf)) ?_
      refine .cons (.poll (.renew hp rfl hn)) ?_
      exact canLose_of_register rfl rfl (by simpa [Sys.Waking] using hw) hs (hu.of_future rfl rfl)

/-! ### The steps that lose a wake-up -/

/-- An old answer that nobody has heard of is a wake-up to be lost. -/
theorem canLose_of_not_heard {s : Sys} (hI : Inv s) (ho : s.OnItsWay) (hu : s.Unseen)
    (hs : s.Settled) (hh : ¬ s.Heard s.Waking) : CanLose s := by
  rcases ho with he | ⟨⟨b, hp⟩, hq⟩
  · rcases MaybeDone.empty_cases he with ⟨j, hf, hr⟩ | ⟨f, max, j, hf, hi, hr⟩
    · obtain ⟨b, hp⟩ := hI.opening hf nofun
      simp only [Sys.Heard, hp, not_or, hf, MaybeDone.joins, Bool.not_eq_true] at hh
      exact canLose_of_missing hp hf hr hh.2.1 hh.2.2 hh.1 hs hu
    · exact Stale.canLose hI ⟨hf, hi, hr, hs, hu⟩ hh
  · simp only [Sys.Heard, hp, hq, true_and] at hh
    exact canLose_of_register hp hq hh hs hu

/-- **A step that is not timely can be followed by a lost wake-up.** -/
theorem canLose_of_not_timely {s s' : Sys} {a : Label} (hI : Inv s) (h : Step s a s')
    (ht : ¬ s.Timely a) : CanLose s' := by
  have hI' := hI.step h
  cases h with
  | poll h =>
      cases h
      case copyNothing hp hf hi hb hg =>
        simp only [Sys.Timely, not_forall] at ht
        obtain ⟨-, hu, hs, hw⟩ := ht
        exact canLose_of_register rfl rfl hw hs ((Sys.unseen_copy hf hg).mpr hu)
      case readNothing hp hf hi hb hg =>
        simp only [Sys.Timely, not_forall] at ht
        obtain ⟨-, hu, hs, hw⟩ := ht
        exact canLose_of_register rfl rfl hw hs ((Sys.unseen_copy hf hg).mpr hu)
      all_goals exact absurd trivial ht
  | pool h => cases h <;> exact absurd trivial ht
  | writer h => cases h <;> exact absurd trivial ht
  | watcher h =>
      cases h with
      | take he hw =>
          simp only [Sys.Timely, not_forall] at ht
          obtain ⟨-, hs, ho, hu, hh⟩ := ht
          rw [he] at hs
          refine canLose_of_not_heard hI' ho hu hs fun h => hh (h.mono rfl rfl rfl ?_)
          rintro (hk | hk)
          · by_cases hwk : s.waker = true
            · exact .inl hwk
            · simp only [hwk, Bool.toNat_false, add_zero] at hk
              exact .inr (.inl hk)
          · exact .inr (.inr hk)
      | ignore he hw =>
          simp only [Sys.Timely, not_forall] at ht
          obtain ⟨hw', -⟩ := ht
          simp [hw] at hw'
      | notice | wake => exact absurd trivial ht

/-- **A wake-up is lost exactly where a step is not timely**: no run of timely steps reaches a
state with a lost wake-up, and each step that is not timely leads to one. -/
theorem no_lost_wakeup (c : Option (List UInt8)) :
    (∀ tr s, Run (Guarded Step Sys.Timely) (init c) tr s → ¬ s.Lost) ∧
      ∀ tr s a s', Run Step (init c) tr s → Step s a s' → ¬ s.Timely a →
        CanReach Step Sys.Lost s' := by
  constructor
  · intro tr s h
    have hA : Inv s ∧ Alert s :=
      h.guarded (.init c) (.init c) (fun _ _ _ hI hs => hI.step hs)
        fun _ _ _ hI hA hs ht => hA.step hI hs ht
    exact hA.2.not_lost
  · intro tr s a s' hr hs ht
    exact canLose_of_not_timely (Inv.of_run hr) hs ht

/-- The file is created, and its event delivered, after a poll that found none has registered. -/
theorem no_lost_wakeup_created : ∃ tr s,
    Run (Guarded Step Sys.Timely) (init none) tr s ∧ s.content = some [] ∧
      s.Settled ∧ ¬ s.Lost := by
  have waiting :=
    (.nil : Run (Guarded Step Sys.Timely) (init none) [] (init none))
      |>.snoc ⟨.poll (.begin (n := 1) (b := ⟨[], 1, by decide⟩) rfl), trivial⟩
      |>.snoc ⟨.poll (.matchFuture rfl rfl), trivial⟩
      |>.snoc ⟨.poll (.spawnOpen rfl rfl), trivial⟩
      |>.snoc ⟨.pool (.runOpenMissing rfl rfl), trivial⟩
      |>.snoc ⟨.pool (.completeOpen rfl), trivial⟩
      |>.snoc ⟨.poll (.renew rfl rfl rfl), trivial⟩
      |>.snoc ⟨.poll (.register rfl), trivial⟩
      |>.snoc ⟨.poll (.returnPending rfl), trivial⟩
  have created := waiting.snoc ⟨.writer (.create rfl), trivial⟩
  have heard := created.snoc ⟨.watcher (.take rfl rfl), fun _ _ ho => by
    rcases ho with h | ⟨⟨b, h⟩, -⟩ <;> cases h⟩
  exact ⟨_, _, heard, rfl, nofun, (no_lost_wakeup none).1 _ _ heard⟩

/-- The first poll opens the empty file and awaits a read; the read finds nothing, a byte is
appended, and the wake-ups of the read and of the event are one to the task, which acts upon the
read of before. -/
theorem wakeup_lost : ¬ ∀ c tr s, Run Step (init c) tr s → ¬ s.Lost := by
  intro hall
  have opened :=
    (.nil : Run Step (init (some [])) [] (init (some [])))
      |>.snoc (.poll (.begin (n := 3) (b := ⟨[], 1, by decide⟩) rfl))
      |>.snoc (.poll (.matchFuture rfl rfl))
      |>.snoc (.poll (.spawnOpen rfl rfl))
      |>.snoc (.pool (.runOpen rfl rfl))
      |>.snoc (.pool (.completeOpen rfl))
      |>.snoc (.poll (.spawnSeek rfl rfl rfl))
      |>.snoc (.pool (.runSeek rfl rfl))
      |>.snoc (.pool (.completeSeek rfl))
      |>.snoc (.poll (.opened rfl rfl rfl))
  have awaiting := opened
      |>.snoc (.poll (.matchOpened rfl rfl))
      |>.snoc (.poll (.spawnRead rfl rfl rfl Nat.one_pos le_rfl))
      |>.snoc (.poll (.readPending rfl rfl rfl Nat.one_ne_zero rfl))
      |>.snoc (.poll (.register rfl))
      |>.snoc (.poll (.returnPending rfl))
  have woken := awaiting
      |>.snoc (.pool (.runRead (k := 0) rfl rfl rfl (Nat.zero_le _) fun _ => le_rfl))
      |>.snoc (.pool (.completeRead rfl rfl))
      |>.snoc (.writer (.append rfl (List.cons_ne_nil 7 [])))
      |>.snoc (.watcher (.take rfl rfl))
      |>.snoc (.watcher (.wake rfl))
      |>.snoc (.watcher (.wake rfl))
  have lost := woken
      |>.snoc (.poll (.begin (n := 1) (b := ⟨[], 1, by decide⟩) rfl))
      |>.snoc (.poll (.matchOpened rfl rfl))
      |>.snoc (.poll (.readNothing rfl rfl rfl rfl rfl))
      |>.snoc (.poll (.register rfl))
      |>.snoc (.poll (.returnPending rfl))
  exact hall _ _ _ lost ⟨rfl, nofun, rfl, rfl, rfl, _, rfl, Nat.zero_lt_one⟩

end CorustHackathon.TailingFile
