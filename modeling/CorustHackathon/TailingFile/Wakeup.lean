import CorustHackathon.TailingFile.Invariant

/-! # No lost wake-up, under a condition on the schedule

`poll_read` asks for bytes (or opens the file) first and registers its waker afterwards, and the
answer may be old when it is looked at.  An event that comes in between finds no waker, or one
whose wake-up is used up by the poll that looks at the old answer, and is lost.

`Timely` is the condition under which this does not happen.  `Alert` is the invariant that it
keeps: wherever an old answer is on its way, an event or a wake-up is still to come. -/

namespace CorustHackathon.TailingFile

namespace Sys

/-- A wake-up of the task is outstanding. -/
def Waking (s : Sys) : Prop := 0 < s.waking ∨ s.woken = true

/-- An answer without a file or without bytes has been given to the task, or to the call on the
blocking pool that it awaits, and the waker has not been registered since. -/
def OnItsWay (s : Sys) : Prop :=
  s.file.empty = true ∨ (∃ b, s.pc = .register b) ∧ s.file.quiet = true

/-- The poll that acts upon the answer has begun, and `w` holds, which wakes the task after it.  In
`FileFut::poll` the completion of the open does this as well, if it is still to come, and a
poll whose budget is exhausted there never returns. -/
def Heard (s : Sys) (w : Prop) : Prop :=
  match s.pc with
  | .opening _ => w ∨ s.file.joins = true ∨ s.budget = 0
  | .loop _ | .reading _ => s.file.inFlight = false ∧ s.budget ≠ 0 ∧ w
  | .register _ => s.file.quiet = true ∧ w
  | _ => False

/-- The condition on a step.  When the callback handles the last event that it acts upon, an answer
on its way still holds, or the poll that acts upon it has begun and will be followed by another
one; and no poll offers a full buffer to a file with bytes to read, unless an event or a
wake-up is still to come. -/
def Timely (s : Sys) : Label → Prop
  | .callback e =>
      e.wanted = true → (∀ e' ∈ s.events.tail, Notice.wanted e' = false) →
        s.OnItsWay → s.Unseen → s.Heard (s.waker = true ∨ s.Waking)
  | .noBytes b => b.remaining = 0 → s.Unseen → s.Settled → s.Waking
  | _ => True

end Sys

/-- The task has registered its waker and returned, or is about to return. -/
def Pc.parked : Pc → Bool
  | .pending _ | .idle (some .pending) => true
  | _ => false

/-- The task has looked at the file for the last time in the poll that returned `Pending`. -/
def Pc.late : Pc → Bool
  | .register _ => true
  | p => p.parked

/-- The invariant of the runs whose steps are timely. -/
structure Alert (s : Sys) : Prop where
  stale : s.OnItsWay → s.Unseen → s.Settled → s.Heard s.Waking
  rest : s.pc.parked = true → s.file.quiet = true → s.Unseen → s.Settled → s.Waking
  armed : s.pc.parked = true → s.file.quiet = true → s.waker = true ∨ s.Waking
  joined : s.pc.late = true → s.file.quiet = false → s.file.joins = true ∨ s.Waking

namespace Alert

theorem init (c : Option (List UInt8)) : Alert (init c) where
  stale := by rintro (h | ⟨⟨b, h⟩, -⟩) <;> cases h
  rest := nofun
  armed := nofun
  joined := nofun

/-- In a poll that has not registered, only the answers on their way matter. -/
theorem of_early {s : Sys} (hp : s.pc.late = false)
    (hs : s.file.empty = true → s.Unseen → s.Settled → s.Heard s.Waking) : Alert s := by
  have hq : s.pc.parked = false := by
    cases h : s.pc <;> simp_all [Pc.late, Pc.parked]
  refine ⟨?_, ?_, ?_, ?_⟩
  · rintro (he | ⟨⟨b, h⟩, -⟩)
    · exact hs he
    · simp [h, Pc.late] at hp
  · simp [hq]
  · simp [hq]
  · simp [hp]

/-- Nothing is left to show where none is on its way. -/
theorem of_idle {s : Sys} (hp : s.pc.late = false) (he : s.file.empty = false) : Alert s :=
  of_early hp (by simp [he])

/-- The task is about to register its waker, and awaits no call. -/
theorem of_register {s : Sys} {b : ReadBuf} (hp : s.pc = .register b)
    (hq : s.file.quiet = true) (hw : s.Unseen → s.Settled → s.Waking) : Alert s := by
  refine ⟨fun _ hu hs => ?_, ?_, ?_, ?_⟩
  · rw [Sys.Heard, hp]
    exact ⟨hq, hw hu hs⟩
  · simp [hp, Pc.parked]
  · simp [hp, Pc.parked]
  · simp [hq]

/-- The task awaits a call on the blocking pool. -/
theorem of_awaiting {s : Sys} (hq : s.file.quiet = false)
    (hs : s.file.empty = true → s.Unseen → s.Settled → s.Heard s.Waking)
    (hj : s.pc.late = true → s.file.joins = true ∨ s.Waking) : Alert s := by
  refine ⟨?_, ?_, ?_, fun hl _ => hj hl⟩
  · rintro (he | ⟨-, h⟩)
    · exact hs he
    · simp [hq] at h
  · simp [hq]
  · simp [hq]

theorem heard {s : Sys} (hA : Alert s) (he : s.file.empty = true) (hu : s.Unseen)
    (hs : s.Settled) : s.Heard s.Waking := hA.stale (.inl he) hu hs

end Alert

theorem Pc.late_opening {p : Pc} {b : ReadBuf} (h : p = .opening b) : p.late = false := by
  rw [h]
  rfl

theorem Sys.Heard.mono {s s' : Sys} {w w' : Prop} (hp : s'.pc = s.pc) (hf : s'.file = s.file)
    (hb : s'.budget = s.budget) (hw : w → w') (h : s.Heard w) : s'.Heard w' := by
  unfold Sys.Heard at h ⊢
  rw [hp, hf, hb]
  split at h
  · exact h.imp_left hw
  · exact ⟨h.1, h.2.1, hw h.2.2⟩
  · exact ⟨h.1, h.2.1, hw h.2.2⟩
  · exact ⟨h.1, hw h.2⟩
  · exact h

/-- A poll that has begun does not act upon a read that still runs. -/
theorem Inv.not_heard {s : Sys} (hI : Inv s) {f : File} (hf : s.file = .done (.ok f))
    (hj : s.file.inFlight = true) (w : Prop) : ¬ s.Heard w := by
  intro hh
  unfold Sys.Heard at hh
  split at hh
  case h_1 b hp =>
    have hF := hI.fits
    rw [hp, hf] at hF
    obtain ⟨o, ho⟩ := hF
    cases ho
  case h_2 | h_3 => simp [hj] at hh
  case h_4 =>
    have := MaybeDone.landed_of_quiet hh.1
    simp [hj] at this
  case h_5 => exact hh

/-- Where nothing is put into the buffer, the reader stays where it is. -/
theorem Sys.unseen_copy {s : Sys} {f : File} {b : ReadBuf} {bs : List UInt8}
    (hf : s.file = .done (.ok f)) (hg : b.grows bs = false) :
    (s.copy f bs b).Unseen ↔ s.Unseen := by
  have ht : bs.take b.remaining = [] := by
    by_cases hb : bs = []
    · simp [hb]
    · simp [ReadBuf.full_of_not_grows hg hb]
  simp [Sys.Unseen, Sys.copy, hf, ht]

theorem Alert.pollStep {s s' : Sys} {a : Label} (hI : Inv s) (hA : Alert s)
    (h : PollStep s a s') (ht : s.Timely a) : Alert s' := by
  cases h with
  | begin hp =>
      refine .of_early rfl fun he hu hs => ?_
      have hh := hA.heard he hu hs
      simp [Sys.Heard, hp] at hh
  | matchOpened hp hf =>
      refine .of_early rfl fun he hu hs => ?_
      have hh := hA.heard he hu hs
      rw [Sys.Heard, hp] at hh
      exact hh
  | takeError | panic | openFailed | seekFailed | opened | copyReady | readReady | readFailed =>
      exact .of_idle rfl (by first | rfl | simp_all [MaybeDone.empty])
  | matchFuture hp hf =>
      have hfr : s.file = .future .fresh := by
        have hF := hI.fits
        rw [hf] at hF ⊢
        rw [hF.fresh (by simp [hp])]
      exact .of_idle rfl (by rw [hfr]; rfl)
  | spawnOpen hp | spawnSeek hp | seekPending hp => exact .of_idle (Pc.late_opening hp) rfl
  | seekExhausted hp hf =>
      exact .of_idle (Pc.late_opening hp) (by show s.file.empty = false; rw [hf]; rfl)
  | openExhausted hp hf hb =>
      exact .of_early (Pc.late_opening hp) fun _ _ _ => by simp [Sys.Heard, hp, hb]
  | openPending hp hf hb hj =>
      exact .of_early (Pc.late_opening hp) fun _ _ _ => by
        simp [Sys.Heard, hp, MaybeDone.joins, Job.register_joins hj]
  | renew hp hf hb =>
      refine .of_register rfl rfl fun hu hs => ?_
      have hh := hA.heard (by rw [hf]; rfl) (hu.of_future rfl hf) hs
      rw [Sys.Heard, hp] at hh
      rcases hh with hw | hj | hb'
      · exact hw
      · rw [hf] at hj; cases hj
      · omega
  | spawnRead hp => exact .of_idle (by show Pc.late s.pc = false; rw [hp]; rfl) rfl
  | copyNothing hp hf hi hb hg =>
      refine .of_register rfl rfl fun hu hs => ?_
      have hr : _ = 0 := hb.elim (ReadBuf.full_of_not_grows hg) id
      exact ht (ReadBuf.remaining_put hr) ((Sys.unseen_copy hf hg).mp hu) hs
  | readExhausted hp hf hi hb =>
      have hq : s.file.quiet = false := by simp [hf, MaybeDone.quiet, hi, FileState.quiet]
      refine .of_awaiting hq (fun he hu hs => ?_) fun _ => .inr (.inr rfl)
      have hh := hA.heard he hu hs
      rw [Sys.Heard, hp] at hh
      exact absurd hb hh.2.1
  | readPending hp hf hi hb hj =>
      refine .of_awaiting rfl (fun he hu hs => ?_) fun _ => .inl (Job.register_joins hj)
      have he' : s.file.empty = true := by
        simpa [hf, hi, MaybeDone.empty, FileState.empty] using he
      have hh := hA.heard he' (hu.of_opened rfl rfl hf rfl rfl) hs
      refine absurd hh (hI.not_heard hf ?_ _)
      simp [hf, MaybeDone.inFlight, hi, FileState.inFlight, hj]
  | readNothing hp hf hi hb hg =>
      rename_i b f max n bs
      refine .of_register rfl rfl fun hu hs => ?_
      have hu' : s.Unseen := (Sys.unseen_copy hf hg).mp hu
      by_cases hbs : bs = []
      · have he : s.file.empty = true := by
          simp [hf, hi, MaybeDone.empty, FileState.empty, Job.result, hbs]
        have hh := hA.heard he hu' hs
        rw [Sys.Heard, hp] at hh
        exact hh.2.2
      · exact ht (ReadBuf.remaining_put (ReadBuf.full_of_not_grows hg hbs)) hu' hs
  | register hp =>
      refine ⟨?_, fun _ hq hu hs => ?_, fun _ _ => .inl rfl, fun _ hq => ?_⟩
      · rintro (he | ⟨⟨b, h⟩, -⟩) hu hs
        · have hh := hA.heard he hu hs
          rw [Sys.Heard, hp] at hh
          have := MaybeDone.not_empty_of_quiet hh.1
          simp [this] at he
        · cases h
      · have hh := hA.stale (.inr ⟨⟨_, hp⟩, hq⟩) hu hs
        rw [Sys.Heard, hp] at hh
        exact hh.2
      · exact hA.joined (by rw [hp]; rfl) hq
  | returnPending hp =>
      refine ⟨?_, fun _ => hA.rest (by rw [hp]; rfl), fun _ => hA.armed (by rw [hp]; rfl),
        fun _ => hA.joined (by rw [hp]; rfl)⟩
      rintro (he | ⟨⟨b, h⟩, -⟩) hu hs
      · have hh := hA.heard he hu hs
        simp [Sys.Heard, hp] at hh
      · cases h

theorem Sys.Waking.add {s : Sys} {n : ℕ} (h : s.Waking) :
    Sys.Waking { s with waking := s.waking + n } := h.imp_left fun hw => by dsimp only; omega

/-- What the task has done about the read that it awaits. -/
theorem Alert.joins_of_busy {s : Sys} (hA : Alert s) {f : File} {max : ℕ}
    {j : Job (Except ErrorKind (List UInt8))} (hf : s.file = .done (.ok f))
    (hi : f.state = .busy max j) (hl : s.pc.late = true) : j.joins = true ∨ s.Waking := by
  have hj := hA.joined hl (by simp [hf, MaybeDone.quiet, hi, FileState.quiet])
  simpa [hf, MaybeDone.joins, hi, FileState.joins] using hj

/-- A read is empty at the end of the file only, where there is nothing to see. -/
theorem Inv.seen_of_empty {s s' : Sys} (hI : Inv s) {f f' : File} {max k : ℕ} {w : Bool}
    {c : List UInt8} (hf : s.file = .done (.ok f)) (hi : f.state = .busy max (.queued w))
    (hc : s.content = some c) (hz : k = 0 → c.length ≤ f.cursor)
    (he : (c.drop f.cursor).take k = []) (hf' : s'.file = .done (.ok f'))
    (hs : f'.start = f.start) (hc' : s'.content = s.content)
    (hd : s'.delivered = s.delivered) : ¬ s'.Unseen := by
  have hR := hI.reads
  rw [hf] at hR
  obtain ⟨skipped, rest, -, -, hcur⟩ := hR
  have hle : c.length ≤ f.cursor := by
    by_cases hk : k = 0
    · exact hz hk
    · simpa [List.take_eq_nil_iff, hk, List.drop_eq_nil_iff] using he
  rintro ⟨c', hcc, hu⟩
  cases (hc'.trans hc).symm.trans hcc
  simp only [hf', hs, hd] at hu
  simp only [hi, FileState.buffered, List.append_nil] at hcur
  omega

theorem Alert.poolStep {s s' : Sys} {a : Label} (hI : Inv s) (hA : Alert s)
    (h : PoolStep s a s') : Alert s' := by
  cases h with
  | runOpen hf | runSeek hf | runSeekError hf | completeSeek hf =>
      obtain ⟨b, hp⟩ := hI.opening hf (by simp)
      exact .of_idle (Pc.late_opening hp) rfl
  | runOpenError hf he =>
      obtain ⟨b, hp⟩ := hI.opening hf (by simp)
      exact .of_idle (Pc.late_opening hp) (by simpa [MaybeDone.empty, Job.result] using he)
  | runOpenMissing hf hc =>
      obtain ⟨b, hp⟩ := hI.opening hf (by simp)
      refine .of_early (Pc.late_opening hp) ?_
      rintro - ⟨c, hc', -⟩
      cases hc.symm.trans hc'
  | runRead hf hi hc hk hz =>
      refine .of_awaiting rfl (fun he hu _ => absurd hu ?_) fun hl => hA.joins_of_busy hf hi hl
      exact hI.seen_of_empty hf hi hc hz
        (by simpa [MaybeDone.empty, FileState.empty, Job.result] using he) rfl rfl rfl rfl
  | runReadError hf hi =>
      refine .of_awaiting rfl (fun he => ?_) fun hl => hA.joins_of_busy hf hi hl
      simp [MaybeDone.empty, FileState.empty, Job.result] at he
  | completeOpen hf =>
      obtain ⟨b, hp⟩ := hI.opening hf (by simp)
      refine .of_early (Pc.late_opening hp) fun he hu hs => ?_
      have hh := hA.heard (by rw [hf]; exact he) (hu.of_future rfl hf) hs
      simp only [Sys.Heard, hp, hf, MaybeDone.joins, Job.joins] at hh ⊢
      rcases hh with hw | hj | hb
      · exact .inl hw.add
      · exact .inl (.inl (by simp [hj]))
      · exact .inr (.inr hb)
  | completeRead hf hi =>
      refine .of_awaiting rfl (fun he hu hs => ?_) fun hl => .inr ?_
      · have he' : s.file.empty = true := by
          simpa [hf, hi, MaybeDone.empty, FileState.empty, Job.result] using he
        have hh := hA.heard he' (hu.of_opened rfl rfl hf rfl rfl) hs
        exact absurd hh (hI.not_heard hf (by simp [hf, MaybeDone.inFlight, hi,
          FileState.inFlight, Job.ready]) _)
      · rcases hA.joins_of_busy hf hi hl with hw | hw
        · cases hw
          exact .inl (Nat.succ_pos _)
        · exact hw.add

theorem Alert.writerStep {s s' : Sys} {a : Label} (hA : Alert s) (h : WriterStep s a s') :
    Alert s' := by
  have hnew : s'.pc = s.pc ∧ s'.file = s.file ∧ s'.waker = s.waker ∧ s'.waking = s.waking ∧
      s'.woken = s.woken ∧ ¬ s'.Settled := by
    cases h <;> refine ⟨rfl, rfl, rfl, rfl, rfl, fun hs => ?_⟩
    · cases hs _ (List.mem_append_right _ (List.mem_singleton_self _))
    · cases hs _ (List.mem_append_right _ (List.mem_singleton_self _))
  obtain ⟨hp, hf, hw, hg, hk, hs⟩ := hnew
  have hwk : s'.Waking ↔ s.Waking := by rw [Sys.Waking, Sys.Waking, hg, hk]
  refine ⟨fun _ _ h => absurd h hs, fun _ _ _ h => absurd h hs, ?_, ?_⟩
  · rw [hp, hf, hw, hwk]
    exact hA.armed
  · rw [hp, hf, hwk]
    exact hA.joined

/-- A step of the watcher hands over an event at most, and turns a waker into a wake-up. -/
theorem Alert.watched {s s' : Sys} (hA : Alert s) (hp : s'.pc = s.pc) (hf : s'.file = s.file)
    (hb : s'.budget = s.budget) (hu : s'.Unseen → s.Unseen)
    (hw : s.waker = true ∨ s.Waking → s'.waker = true ∨ s'.Waking) (hk : s.Waking → s'.Waking)
    (hs : s'.Settled → s.Settled ∨
      (s.waker = true ∨ s.Waking → s'.Waking) ∧
        (s.OnItsWay → s.Unseen → s.Heard (s.waker = true ∨ s.Waking))) : Alert s' := by
  refine ⟨fun ho hu' hs' => ?_, fun hpk hq hu' hs' => ?_, ?_, ?_⟩
  · rw [Sys.OnItsWay, hp, hf] at ho
    rcases hs hs' with hs | ⟨hwk, ht⟩
    · exact (hA.stale ho (hu hu') hs).mono hp hf hb hk
    · exact (ht ho (hu hu')).mono hp hf hb hwk
  · rw [hp] at hpk
    rw [hf] at hq
    rcases hs hs' with hs | ⟨hwk, -⟩
    · exact hk (hA.rest hpk hq (hu hu') hs)
    · exact hwk (hA.armed hpk hq)
  · rw [hp, hf]
    exact fun hpk hq => hw (hA.armed hpk hq)
  · rw [hp, hf]
    exact fun hl hq => (hA.joined hl hq).imp_right hk

theorem Alert.watcherStep {s s' : Sys} {a : Label} (hA : Alert s) (h : WatcherStep s a s')
    (ht : s.Timely a) : Alert s' := by
  cases h with
  | notice =>
      exact hA.watched rfl rfl rfl id id id fun hs =>
        .inl fun e he => hs e (List.mem_append_left _ he)
  | take he hw =>
      have hk : s.waker = true ∨ s.Waking →
          0 < s.waking + s.waker.toNat ∨ s.woken = true := by
        rintro (h | h)
        · exact .inl (by simp [h])
        · exact h.add
      refine hA.watched rfl rfl rfl id (fun h => .inr (hk h)) (fun h => h.add) fun hs =>
        .inr ⟨hk, ht hw fun e' he' => hs e' ?_⟩
      simpa [he] using he'
  | ignore he hw =>
      refine hA.watched rfl rfl rfl id id id fun hs => .inl fun e' he' => ?_
      rw [he, List.mem_cons] at he'
      rcases he' with rfl | he'
      · exact hw
      · exact hs _ he'
  | wake => exact hA.watched rfl rfl rfl id (fun _ => .inr (.inr rfl)) (fun _ => .inr rfl) .inl

theorem Alert.step {s s' : Sys} {a : Label} (hI : Inv s) (hA : Alert s) (h : Step s a s')
    (ht : s.Timely a) : Alert s' := by
  cases h with
  | poll h => exact hA.pollStep hI h ht
  | pool h => exact hA.poolStep hI h
  | writer h => exact hA.writerStep h
  | watcher h => exact hA.watcherStep h ht

theorem Alert.not_lost {s : Sys} (hA : Alert s) : ¬ s.Lost := by
  intro hl
  have hw : ¬ s.Waking := by simp [Sys.Waking, hl.waking, hl.woken]
  have hp : s.pc.parked = true := by rw [hl.pending]; rfl
  cases hq : s.file.quiet with
  | true => exact hw (hA.rest hp hq hl.unseen hl.settled)
  | false =>
      rcases hA.joined (by rw [hl.pending]; rfl) hq with hj | hk
      · have := MaybeDone.inFlight_of_joins hj
        simp [hl.landed] at this
      · exact hw hk

end CorustHackathon.TailingFile
