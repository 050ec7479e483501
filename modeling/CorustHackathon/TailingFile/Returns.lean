import CorustHackathon.Executions
import CorustHackathon.TailingFile.Invariant

/-! # The return of `FileFut::poll`

The `loop` of `FileFut::poll` goes on while the inner future is pending.  With budget left, that is
until the blocking pool has answered; without it, the inner poll makes no progress, and nothing
refills the budget before the task returns.  The open takes one unit and the seek another one, so
that the call returns exactly where there are two of them, or one and the open fails. -/

namespace CorustHackathon.TailingFile

namespace FileFut

/-- How far the future is. -/
def stage : FileFut → ℕ
  | fresh => 0
  | opening _ => 1
  | seeking _ => 2

/-- The units of the budget that the future has taken. -/
def paid : FileFut → ℕ
  | seeking _ => 1
  | _ => 0

/-- What the open has returned. -/
def answer : FileFut → Option (Except ErrorKind Unit)
  | fresh => none
  | opening j => j.result
  | seeking _ => some (.ok ())

theorem stage_le (o : FileFut) : o.stage ≤ 2 := by cases o <;> simp [stage]

theorem paid_le (o : FileFut) : o.paid ≤ 1 := by cases o <;> simp [paid]

theorem paid_eq (o : FileFut) : o.paid = o.stage - 1 := by cases o <;> rfl

theorem answer_of_paid {o : FileFut} (h : o.paid = 1) : o.answer = some (.ok ()) := by
  cases o with
  | fresh | opening j => cases h
  | seeking j => rfl

end FileFut

namespace MaybeDone

/-- How far the open is; it is over for a `MaybeDone` without a future. -/
def stage : MaybeDone → ℕ
  | future o => o.stage
  | _ => 0

@[simp] theorem stage_future (o : FileFut) : (future o).stage = o.stage := rfl

theorem stage_le (m : MaybeDone) : m.stage ≤ 2 := by
  cases m with
  | future o => exact o.stage_le
  | done r | gone => exact Nat.zero_le 2

end MaybeDone

/-! ### One step during the call -/

/-- A step in the `loop`, from the inner future `o` to `o'`. -/
structure Stays (s : Sys) (a : Label) (s' : Sys) (o o' : FileFut) : Prop where
  stage : o.stage ≤ o'.stage
  paid : s'.budget + o'.paid = s.budget + o.paid
  answered : o'.answer = o.answer ∨ ∃ r, a = .runOpen r ∧ o.answer = none ∧ o'.answer = some r
  moves : PollStep s a s' →
    o.stage < o'.stage ∨ s.budget = 0 ∨ a = .openPending ∨ a = .seekPending

/-- The call returns `Pending` with a fresh future, or `Ready`, and takes a unit for it. -/
structure Leaves (s s' : Sys) (b : ReadBuf) (o : FileFut) : Prop where
  returned : (s'.pc = .register b ∧ s'.file = .future .fresh) ∨
    (s'.pc = .loop b ∧ ∃ r, s'.file = .done r)
  budget : s.budget ≠ 0
  finished : (∃ e, o.answer = some (.error e)) ∨ o.paid = 1

theorem PollStep.opening {s s' : Sys} {a : Label} {b : ReadBuf} {o : FileFut}
    (h : PollStep s a s') (hp : s.pc = .opening b) (hf : s.file = .future o) :
    (s'.pc = .opening b ∧ ∃ o', s'.file = .future o' ∧ Stays s a s' o o') ∨ Leaves s s' b o := by
  cases h with
  | spawnOpen hp' hf' =>
      cases hf.symm.trans hf'
      exact .inl ⟨hp, _, rfl, Nat.zero_le _, rfl, .inl rfl, fun _ => .inl Nat.one_pos⟩
  | openExhausted hp' hf' hb | seekExhausted hp' hf' hb =>
      exact .inl ⟨hp, o, hf, le_rfl, rfl, .inl rfl, fun _ => .inr (.inl hb)⟩
  | openPending hp' hf' =>
      cases hf.symm.trans hf'
      refine .inl ⟨hp, _, rfl, le_rfl, rfl, .inl ?_, fun _ => .inr (.inr (.inl rfl))⟩
      exact Job.register_result _
  | seekPending hp' hf' =>
      cases hf.symm.trans hf'
      exact .inl ⟨hp, _, rfl, le_rfl, rfl, .inl rfl, fun _ => .inr (.inr (.inr rfl))⟩
  | spawnSeek hp' hf' hb =>
      cases hf.symm.trans hf'
      refine .inl ⟨hp, _, rfl, Nat.le_succ 1, ?_, .inl rfl, fun _ => .inl Nat.one_lt_two⟩
      exact hb.symm
  | renew hp' hf' hb =>
      cases hf.symm.trans hf'
      cases hp.symm.trans hp'
      exact .inr ⟨.inl ⟨rfl, rfl⟩, by omega, .inl ⟨_, rfl⟩⟩
  | openFailed hp' hf' he hb =>
      cases hf.symm.trans hf'
      cases hp.symm.trans hp'
      exact .inr ⟨.inr ⟨rfl, _, rfl⟩, by omega, .inl ⟨_, rfl⟩⟩
  | opened hp' hf' hb | seekFailed hp' hf' hb =>
      cases hf.symm.trans hf'
      cases hp.symm.trans hp'
      exact .inr ⟨.inr ⟨rfl, _, rfl⟩, by omega, .inr rfl⟩
  | begin hp' | matchOpened hp' | takeError hp' | matchFuture hp' | panic hp' | spawnRead hp'
  | copyReady hp' | copyNothing hp' | readExhausted hp' | readPending hp' | readReady hp'
  | readNothing hp' | readFailed hp' | register hp' | returnPending hp' =>
      cases hp.symm.trans hp'

theorem PoolStep.not_pollStep {s s' s'' : Sys} {a : Label} (h : PoolStep s a s') :
    ¬ PollStep s a s'' := by
  rintro hp
  cases h <;> cases hp

theorem PoolStep.opening {s s' : Sys} {a : Label} {b : ReadBuf} {o : FileFut}
    (h : PoolStep s a s') (hp : s.pc = .opening b) (hf : s.file = .future o) :
    s'.pc = .opening b ∧ ∃ o', s'.file = .future o' ∧ Stays s a s' o o' := by
  have hn : ∀ {p : Prop}, PollStep s a s' → p := fun h' => (h.not_pollStep h').elim
  cases h with
  | runOpen hf' | runOpenMissing hf' | runOpenError hf' =>
      cases hf.symm.trans hf'
      exact ⟨hp, _, rfl, le_rfl, rfl, .inr ⟨_, rfl, rfl, rfl⟩, hn⟩
  | runSeek hf' | runSeekError hf' | completeOpen hf' | completeSeek hf' =>
      cases hf.symm.trans hf'
      exact ⟨hp, _, rfl, le_rfl, rfl, .inl rfl, hn⟩
  | runRead hf' | runReadError hf' | completeRead hf' => cases hf.symm.trans hf'

/-- What a step can do while the task is in `FileFut::poll`. -/
theorem Step.opening {s s' : Sys} {a : Label} {b : ReadBuf} {o : FileFut}
    (h : Step s a s') (hp : s.pc = .opening b) (hf : s.file = .future o) :
    (s'.pc = .opening b ∧ ∃ o', s'.file = .future o' ∧ Stays s a s' o o') ∨ Leaves s s' b o := by
  cases h with
  | poll h => exact h.opening hp hf
  | pool h => exact .inl (h.opening hp hf)
  | writer h =>
      refine .inl ?_
      cases h with
      | create | append => exact ⟨hp, o, hf, le_rfl, rfl, .inl rfl, nofun⟩
  | watcher h =>
      refine .inl ?_
      cases h with
      | notice | take | ignore | wake => exact ⟨hp, o, hf, le_rfl, rfl, .inl rfl, nofun⟩

/-- The pool makes the system call of an open that has not been answered. -/
theorem Step.answers {s s' : Sys} {r : Except ErrorKind Unit} (h : Step s (.runOpen r) s') :
    ∃ o o', s.file = .future o ∧ o.answer = none ∧ s'.file = .future o' ∧ o'.answer = some r := by
  cases h with
  | poll h | writer h | watcher h => cases h
  | pool h =>
      cases h with
      | runOpen hf | runOpenMissing hf | runOpenError hf => exact ⟨_, _, hf, rfl, rfl, rfl⟩

/-- **Without budget no run leaves the loop**, whatever the pool, the writer and the watcher do. -/
theorem no_return_of_exhausted {s s' : Sys} {tr : List Label} {b : ReadBuf} {o : FileFut}
    (hp : s.pc = .opening b) (hf : s.file = .future o) (hb : s.budget = 0)
    (h : Run Step s tr s') : s'.pc = .opening b := by
  have hI := h.preserves
    (I := fun s => s.pc = .opening b ∧ (∃ o, s.file = .future o) ∧ s.budget = 0)
    (fun s₁ a s₂ hi hs => ?_) ⟨hp, ⟨o, hf⟩, hb⟩
  · exact hI.1
  · obtain ⟨hp, ⟨o, hf⟩, hb⟩ := hi
    rcases hs.opening hp hf with ⟨hp', o', hf', hst⟩ | hl
    · have hpaid := hst.paid
      have hstage := hst.stage
      rw [o.paid_eq, o'.paid_eq] at hpaid
      exact ⟨hp', ⟨o', hf'⟩, by omega⟩
    · exact absurd hb hl.budget

/-! ### A call -/

/-- A call of `FileFut::poll` that has not returned at the time `i`. -/
def During (e : Execution Step) (b : ReadBuf) (i : ℕ) : Prop :=
  ∀ j ≤ i, (e.state j).pc = .opening b

theorem During.before {e : Execution Step} {b : ReadBuf} {i j : ℕ} (h : During e b i)
    (hj : j ≤ i) : During e b j := fun k hk => h k (hk.trans hj)

/-- A call of `FileFut::poll`, and what happens from then on.  Of `tokio` it is assumed that a
`JoinHandle` that is polled with budget left is ready after finitely many polls. -/
structure FutPoll (b : ReadBuf) extends Execution Step where
  enters : (state 0).pc = .opening b
  fresh : (state 0).file = .future .fresh
  /-- The task goes on as long as the call has not returned. -/
  runs : ∀ i, During toExecution b i →
    ∃ j ≥ i, PollStep (state j) (label j) (state (j + 1))
  ready : ∃ n, ∀ i ≥ n, During toExecution b i → label i ≠ .openPending ∧ label i ≠ .seekPending

namespace FutPoll

variable {b : ReadBuf} (e : FutPoll b)

/-- The call returns, `Pending` or `Ready`, after the finitely many inner polls before `i`. -/
def Returns : Prop :=
  ∃ i, During e.toExecution b i ∧
    ((e.state (i + 1)).pc = .register b ∨ (e.state (i + 1)).pc = .loop b)

/-- The open that the call makes returns an error. -/
def OpenFails : Prop := ∃ i err, During e.toExecution b i ∧ e.label i = .runOpen (.error err)

/-- There is budget for the open, and for the seek if there is one. -/
def Affords : Prop :=
  2 ≤ (e.state 0).budget ∨ ((e.state 0).budget = 1 ∧ e.OpenFails)

theorem during_zero : During e.toExecution b 0 := by
  intro j hj
  rw [Nat.le_zero.mp hj]
  exact e.enters

/-- A step that does not return keeps the call in the loop. -/
theorem stays {i : ℕ} (h : During e.toExecution b (i + 1)) {o : FileFut}
    (hf : (e.state i).file = .future o) :
    ∃ o', (e.state (i + 1)).file = .future o' ∧
      Stays (e.state i) (e.label i) (e.state (i + 1)) o o' := by
  rcases (e.next i).opening (h i (Nat.le_succ i)) hf with ⟨-, hs⟩ | hl
  · exact hs
  · rcases hl.returned with ⟨hp, -⟩ | ⟨hp, -⟩ <;> cases hp.symm.trans (h (i + 1) le_rfl)

/-- During the call there is an inner future, which has taken what is missing from the budget, and
whose answer is that of the open. -/
theorem future {i : ℕ} (h : During e.toExecution b i) :
    ∃ o, (e.state i).file = .future o ∧
      (e.state i).budget + o.paid = (e.state 0).budget ∧
      ∀ r, o.answer = some r → ∃ j < i, e.label j = .runOpen r := by
  induction i with
  | zero => exact ⟨_, e.fresh, rfl, nofun⟩
  | succ i ih =>
      obtain ⟨o, hf, hb, ha⟩ := ih (h.before (Nat.le_succ i))
      obtain ⟨o', hf', hs⟩ := e.stays h hf
      refine ⟨o', hf', hs.paid.trans hb, fun r hr => ?_⟩
      rcases hs.answered with he | ⟨r', hr', -, ho'⟩
      · obtain ⟨j, hj, hl⟩ := ha r (he ▸ hr)
        exact ⟨j, hj.trans (Nat.lt_succ_self i), hl⟩
      · cases hr.symm.trans ho'
        exact ⟨i, Nat.lt_succ_self i, hr'⟩

/-- The answer of the open stays. -/
theorem keeps_answer {i j : ℕ} (hij : i ≤ j) (hj : During e.toExecution b j) {o : FileFut}
    {r : Except ErrorKind Unit} (hf : (e.state i).file = .future o) (hr : o.answer = some r) :
    ∃ o', (e.state j).file = .future o' ∧ o'.answer = some r := by
  induction j, hij using Nat.le_induction with
  | base => exact ⟨o, hf, hr⟩
  | succ j _ ih =>
      obtain ⟨o', hf', hr'⟩ := ih (hj.before (Nat.le_succ j))
      obtain ⟨o'', hf'', hs⟩ := e.stays hj hf'
      rcases hs.answered with he | ⟨r', -, hn, -⟩
      · exact ⟨o'', hf'', he.trans hr'⟩
      · cases hn.symm.trans hr'

/-- An open that fails is not followed by a seek. -/
theorem paid_of_openFails (h : e.OpenFails) {i : ℕ} (hi : During e.toExecution b i) {o : FileFut}
    (hf : (e.state i).file = .future o) : o.paid = 0 := by
  obtain ⟨k, err, hk, hl⟩ := h
  have hs := e.next k
  rw [hl] at hs
  obtain ⟨o₁, o₂, hf₁, hn, hf₂, he⟩ := hs.answers
  by_contra hp
  have hok : o.answer = some (.ok ()) := FileFut.answer_of_paid (by have := o.paid_le; omega)
  by_cases hik : i ≤ k
  · obtain ⟨o', hf', ho'⟩ := e.keeps_answer hik hk hf hok
    cases hf'.symm.trans hf₁
    cases hn.symm.trans ho'
  · obtain ⟨o', hf', ho'⟩ := e.keeps_answer (Nat.lt_of_not_le hik) hi hf₂ he
    cases hf'.symm.trans hf
    cases hok.symm.trans ho'

/-- A call that can afford the open and the seek never runs out of budget. -/
theorem budget_of_affords (h : e.Affords) {i : ℕ} (hi : During e.toExecution b i) :
    (e.state i).budget ≠ 0 := by
  obtain ⟨o, hf, hb, -⟩ := e.future hi
  rcases h with h | ⟨h, hfail⟩
  · have := o.paid_le
    omega
  · have := e.paid_of_openFails hfail hi hf
    omega

/-- The step after which the call is over returns from it. -/
theorem returns_of_not_during (h : ∃ i, ¬ During e.toExecution b i) : e.Returns := by
  classical
  have hz : Nat.find h ≠ 0 := fun hz => Nat.find_spec h (hz ▸ e.during_zero)
  obtain ⟨i, hi⟩ := Nat.exists_eq_succ_of_ne_zero hz
  have hd : During e.toExecution b i := not_not.mp (Nat.find_min h (by omega))
  obtain ⟨o, hf, -⟩ := e.future hd
  refine ⟨i, hd, ?_⟩
  rcases (e.next i).opening (hd i le_rfl) hf with ⟨hp, -⟩ | hl
  · refine absurd (fun j hj => ?_) (Nat.find_spec h)
    rcases Nat.lt_or_eq_of_le hj with hj | rfl
    · exact hd j (by omega)
    · rw [hi]
      exact hp
  · exact hl.returned.imp And.left And.left

end FutPoll

/-- **`FileFut::poll` returns exactly where the budget pays for the open and the seek**: for every
behaviour of the pool, the writer and the watcher, and every budget. -/
theorem poll_returns_iff {b : ReadBuf} (e : FutPoll b) : e.Returns ↔ e.Affords := by
  constructor
  · rintro ⟨i, hi, hp⟩
    obtain ⟨o, hf, hb, ha⟩ := e.future hi
    rcases (e.next i).opening (hi i le_rfl) hf with ⟨hp', -⟩ | hl
    · rcases hp with hp | hp <;> cases hp.symm.trans hp'
    · have hn := hl.budget
      rcases hl.finished with ⟨err, herr⟩ | hpaid
      · obtain ⟨j, hj, hlab⟩ := ha _ herr
        have hfail : e.OpenFails := ⟨j, err, hi.before hj.le, hlab⟩
        by_cases h1 : (e.state 0).budget = 1
        · exact .inr ⟨h1, hfail⟩
        · exact .inl (by omega)
      · exact .inl (by omega)
  · intro h
    by_contra hr
    have hd : ∀ i, During e.toExecution b i := fun i =>
      not_not.mp fun hi => hr (e.returns_of_not_during ⟨i, hi⟩)
    have hstep : ∀ i, ∃ o o', (e.state i).file = .future o ∧ (e.state (i + 1)).file = .future o' ∧
        Stays (e.state i) (e.label i) (e.state (i + 1)) o o' := fun i => by
      obtain ⟨o, hf, -⟩ := e.future (hd i)
      obtain ⟨o', hf', hs⟩ := e.stays (hd (i + 1)) hf
      exact ⟨o, o', hf, hf', hs⟩
    -- the inner future never goes back, so that it stays where it is in the end
    obtain ⟨n, hn⟩ := e.settles (m := fun s => s.file.stage) (b := 2)
      (fun i => (e.state i).file.stage_le) fun i => by
        obtain ⟨o, o', hf, hf', hs⟩ := hstep i
        simpa [hf, hf'] using hs.stage
    obtain ⟨n', hn'⟩ := e.ready
    obtain ⟨j, hj, hpoll⟩ := e.runs (max n n') (hd _)
    obtain ⟨o, o', hf, hf', hs⟩ := hstep j
    have hsame : o'.stage = o.stage := by
      simpa [hf, hf'] using hn j ((le_max_left n n').trans hj)
    obtain ⟨hopen, hseek⟩ := hn' j ((le_max_right n n').trans hj) (hd j)
    rcases hs.moves hpoll with hlt | hzero | hlab | hlab
    · exact absurd hsame hlt.ne'
    · exact e.budget_of_affords h (hd j) hzero
    · exact hopen hlab
    · exact hseek hlab

/-! ### Calls that return and calls that hang -/

/-- A buffer with room for one byte. -/
abbrev oneByte : ReadBuf := ⟨[], 1, by decide⟩

/-- The first poll of a tail whose path holds `c`, with a budget of `n`, enters
`FileFut::poll`. -/
def entered (c : Option (List UInt8)) (n : ℕ) : Sys :=
  { init c with pc := .opening oneByte, budget := n }

theorem entered_run (c : Option (List UInt8)) (n : ℕ) :
    Run Step (init c) [.begin n oneByte, .matchFuture] (entered c n) :=
  (Run.single (.poll (.begin rfl))).trans (Run.single (.poll (.matchFuture rfl rfl)))

/-- The path is missing and there is one unit of budget: the open fails, the call returns, and
after that the watcher sees something else again and again. -/
def missing : FutPoll oneByte where
  state
    | 0 => entered none 1
    | 1 => { entered none 1 with file := .future (.opening (.queued false)) }
    | 2 => { entered none 1 with file := .future (.opening (.ran (.error .notFound) false)) }
    | 3 => { entered none 1 with file := .future (.opening (.complete (.error .notFound))) }
    | i + 4 =>
        { entered none 0 with pc := .register oneByte, events := List.replicate i none }
  label
    | 0 => .spawnOpen
    | 1 => .runOpen (.error .notFound)
    | 2 => .complete
    | 3 => .renew
    | _ + 4 => .notice none
  next
    | 0 => .poll (.spawnOpen rfl rfl)
    | 1 => .pool (.runOpenMissing rfl rfl)
    | 2 => .pool (.completeOpen (w := false) rfl)
    | 3 => .poll (.renew rfl rfl rfl)
    | i + 4 => by
        dsimp only
        rw [List.replicate_succ']
        exact .watcher .notice
  enters := rfl
  fresh := rfl
  runs i hi := by
    have hlt : i < 4 := by
      by_contra h
      cases hi 4 (Nat.le_of_not_lt h)
    exact ⟨3, by omega, .renew rfl rfl rfl⟩
  ready := by
    refine ⟨4, fun i hi hd => ?_⟩
    cases hd 4 hi

/-- One unit is enough for a missing file. -/
theorem poll_returns_missing : (missing.state 0).budget = 1 ∧ missing.Returns := by
  refine ⟨rfl, (poll_returns_iff missing).mpr (.inr ⟨rfl, 1, .notFound, fun j hj => ?_, rfl⟩)⟩
  rcases Nat.le_one_iff_eq_zero_or_eq_one.mp hj with rfl | rfl <;> rfl

/-- The file exists and there is no budget: the open succeeds, and the inner poll does not say so
any more. -/
def exhausted : FutPoll oneByte where
  state
    | 0 => entered (some []) 0
    | 1 => { entered (some []) 0 with file := .future (.opening (.queued false)) }
    | 2 => { entered (some []) 0 with file := .future (.opening (.ran (.ok ()) false)) }
    | 3 => { entered (some []) 0 with file := .future (.opening (.complete (.ok ()))) }
    | _ + 4 =>
        { entered (some []) 0 with
          file := .future (.opening (.complete (.ok ())))
          woken := true }
  label
    | 0 => .spawnOpen
    | 1 => .runOpen (.ok ())
    | 2 => .complete
    | _ + 3 => .openExhausted
  next
    | 0 => .poll (.spawnOpen rfl rfl)
    | 1 => .pool (.runOpen rfl rfl)
    | 2 => .pool (.completeOpen (w := false) rfl)
    | 3 => .poll (.openExhausted rfl rfl rfl)
    | _ + 4 => .poll (.openExhausted rfl rfl rfl)
  enters := rfl
  fresh := rfl
  runs i _ := ⟨i + 4, by omega, .openExhausted rfl rfl rfl⟩
  ready := by
    refine ⟨3, fun i hi _ => ?_⟩
    obtain ⟨k, rfl⟩ := Nat.exists_eq_add_of_le' hi
    exact ⟨nofun, nofun⟩

/-- The first poll of a tail hangs if other resources have used up the budget of the task. -/
theorem poll_hangs : ¬ ∀ c tr b (e : FutPoll b), Run Step (init c) tr (e.state 0) → e.Returns := by
  intro hall
  obtain ⟨i, -, hp⟩ := hall _ _ _ exhausted (entered_run (some []) 0)
  have hpc := no_return_of_exhausted rfl rfl rfl (exhausted.run (i + 1))
  rcases hp with hp | hp <;> cases hp.symm.trans hpc

end CorustHackathon.TailingFile
