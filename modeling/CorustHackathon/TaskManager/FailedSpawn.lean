import CorustHackathon.TaskManager.Conservation
import CorustHackathon.TaskManager.Shutdown

/-! # A `spawn_task` that fails

`spawn_task` inserts the boxed task into `waiting` before it sends the `Task`.  The send fails if
the background thread has panicked, which it can do before its first `recv` only; then there is no
future and no context, and `spawn_task` returns `Err`.  Its entry stays in `waiting`, where nobody
will start it, unless some `cancel` has removed the key in between. -/

namespace CorustHackathon.TaskManager

open Function (update)

variable {s s' : Sys} {a : Label} {n KEY : ℕ} {tr : List Label}

/-! ### What a failed send finds -/

/-- Before its first `recv`, and after a panic, the background thread has spawned no future. -/
theorem unspawned_of_run (h : Run Step (init n KEY) tr s)
    (hb : s.background = .build ∨ s.background = .panicked) (t : ℕ) : s.fut t = .unspawned := by
  revert hb
  refine h.invariant (I := fun _ s => s.background = .build ∨ s.background = .panicked →
    s.fut t = .unspawned) (fun _ => rfl) fun tr s a s' hr ih hs hb => ?_
  cases hs with
  | other => exact ih hb
  | own hs =>
      cases hs with
      | call c hs =>
          rw [hs.frame.background] at hb
          rw [hs.frame.fut]
          exact ih hb
      | drop hs =>
          rw [hs.frame.background] at hb
          rw [hs.frame.fut]
          exact ih hb
      | fut u hs =>
          rw [hs.frame.background] at hb
          by_cases hut : t = u
          · subst hut
            exact absurd (ih hb) hs.frame.spawned
          · rw [hs.frame.others t hut]
            exact ih hb
      | background hs =>
          cases hs with
          | buildPanic hb' => exact ih (.inl hb')
          | receive => dsimp only at hb; split_ifs at hb <;> simp at hb
          | joinAll hb' => simp [hb'] at hb
          | built | joinNext | closed | exit => simp at hb

/-- What a `spawn_task` that is about to fail finds. -/
structure Deserted (s : Sys) : Prop where
  background : s.background = .panicked
  dropping : s.dropping = .alive
  fut : ∀ t, s.fut t = .unspawned
  ongoing : ∀ k, s.ongoing.lookup k = none

theorem Deserted.of_spawnErr {c d : ℕ} (h : Run Step (init n KEY) tr s)
    (hs : Step s (.spawnErr c d) s') : Deserted s := by
  have hI := Inv.of_run h
  cases hs.callStep rfl with
  | spawnErr hc hr =>
      have halive : s.dropping = .alive := alive_of_run h (by rw [hc]; nofun)
      have hp : s.background = .panicked := by
        cases hb : s.background with
        | panicked => rfl
        | exited =>
            -- the thread leaves its loop only after `Drop` has taken the sender
            have hC := Closed.of_run h
            have htx := hC.tx
            rw [(hC.chan (.inr hb)).2, halive] at htx
            simp [Dropping.rank] at htx
        | build | recv | joinNext | joinAll => rw [hb] at hr; cases hr
      refine ⟨hp, halive, unspawned_of_run h (.inr hp), fun k => ?_⟩
      cases hl : s.ongoing.lookup k with
      | none => rfl
      | some t => exact absurd (unspawned_of_run h (.inr hp) t) (hI.contexts.spawned hl)

/-! ### The entries of `waiting` and the history -/

/-- The step puts an entry with the key `k` into `waiting`. -/
def Label.inserts (k : ℕ) : Label → Prop
  | .insert _ d => keyOf d = k
  | _ => False

/-- The step leaves no entry with the key `k` in `waiting`. -/
def Label.clears (k : ℕ) : Label → Prop
  | .removed _ k' _ => k' = k
  | .take t _ => keyOf t = k
  | .drain _ => True
  | _ => False

/-- `spawn_task` returned `Ok` with the key of draw `d`. -/
def Told (tr : List Label) (d : ℕ) : Prop := ∃ c, .spawnOk c d ∈ tr

/-- `spawn_task` returned `Err` after draw `d`. -/
def Refused (tr : List Label) (d : ℕ) : Prop := ∃ c, .spawnErr c d ∈ tr

/-- The call of `spawn_task` that has made draw `d` has not returned. -/
def InProgress (s : Sys) (d : ℕ) : Prop := ∃ c, (s.call c).draw = some d

theorem Step.absent_iff (h : Step s a s') (k : ℕ) :
    s'.waiting.lookup k = none ↔
      a.clears k ∨ (s.waiting.lookup k = none ∧ ¬ a.inserts k) := by
  cases h with
  | other => simp [Label.clears, Label.inserts]
  | own h =>
      cases h with
      | call c h =>
          cases h with
          | @insert d =>
              by_cases hk : k = keyOf d
              · simp [lookup_insert_apply, Label.clears, Label.inserts, hk]
              · simp [Label.clears, Label.inserts, hk, Ne.symm hk]
          | removed =>
              simp [lookup_erase_apply, Label.clears, Label.inserts, eq_comm, or_iff_not_imp_left]
          | _ => simp [Label.clears, Label.inserts]
      | fut t h =>
          cases h with
          | take =>
              simp [lookup_erase_apply, Label.clears, Label.inserts, eq_comm, or_iff_not_imp_left]
          | _ => simp [Label.clears, Label.inserts]
      | background h => cases h <;> simp [Label.clears, Label.inserts]
      | drop h => cases h <;> simp [Label.clears, Label.inserts]

/-- A key that is not inserted again stays absent. -/
theorem absent_of_run (h : Run Step s tr s') {k : ℕ} (hn : ∀ a ∈ tr, ¬ a.inserts k)
    (hk : s.waiting.lookup k = none) : s'.waiting.lookup k = none := by
  induction h with
  | nil => exact hk
  | snoc _ hs ih =>
      exact (hs.absent_iff k).mpr
        (.inr ⟨ih fun a ha => hn a (List.mem_append_left _ ha), hn _ (by simp)⟩)

/-- A key that is absent was never inserted, or was cleared after its last insertion. -/
theorem cleared_of_run (h : Run Step (init n KEY) tr s) {k : ℕ}
    (hk : s.waiting.lookup k = none) :
    (∀ a ∈ tr, ¬ a.inserts k) ∨
      ∃ tr₁ a tr₂, tr = tr₁ ++ a :: tr₂ ∧ a.clears k ∧ ∀ a' ∈ tr₂, ¬ a'.inserts k := by
  revert hk
  refine h.invariant (I := fun tr s => s.waiting.lookup k = none → (∀ a ∈ tr, ¬ a.inserts k) ∨
    ∃ tr₁ a tr₂, tr = tr₁ ++ a :: tr₂ ∧ a.clears k ∧ ∀ a' ∈ tr₂, ¬ a'.inserts k)
    (fun _ => .inl nofun) fun tr s a s' hr ih hs hk => ?_
  have extend : ∀ {l : List Label}, (∀ a' ∈ l, ¬ a'.inserts k) → ¬ a.inserts k →
      ∀ a' ∈ l ++ [a], ¬ a'.inserts k := fun hl ha a' hm => by
    rcases List.mem_append.mp hm with hm | hm
    · exact hl a' hm
    · rwa [List.mem_singleton.mp hm]
  rcases (hs.absent_iff k).mp hk with hc | ⟨hk, ha⟩
  · exact .inr ⟨tr, a, [], rfl, hc, nofun⟩
  · rcases ih hk with hn | ⟨tr₁, a', tr₂, rfl, hc, hn⟩
    · exact .inl (extend hn ha)
    · exact .inr ⟨tr₁, a', tr₂ ++ [a], by simp, hc, extend hn ha⟩

theorem spawned_of_take (h : Run Step (init n KEY) tr s) {t b : ℕ} (ht : .take t b ∈ tr) :
    s.fut t ≠ .unspawned := by
  obtain ⟨tr₁, tr₂, rfl⟩ := List.append_of_mem ht
  obtain ⟨m, m', h₁, hs, h₂⟩ := h.split_at
  have hI : Inv m' := (Inv.of_run h₁).step hs
  have hm : Inv s ∧ s.fut t ≠ .unspawned :=
    h₂.preserves (I := fun s => Inv s ∧ s.fut t ≠ .unspawned)
      (fun _ _ _ hi hs => ⟨hi.1.step hs, hs.spawned hi.1.mail hi.2⟩)
      ⟨hI, (hs.futStep rfl).frame.spawned'⟩
  exact hm.2

/-- A `cancel` has removed the key `k` from `waiting`, and nothing has inserted it again. -/
def Withdrawn (tr : List Label) (k : ℕ) : Prop :=
  ∃ tr₁ c b tr₂, tr = tr₁ ++ .removed c k b :: tr₂ ∧ ∀ a ∈ tr₂, ¬ a.inserts k

theorem absent_of_withdrawn (h : Run Step (init n KEY) tr s) {k : ℕ} (hw : Withdrawn tr k) :
    s.waiting.lookup k = none := by
  obtain ⟨tr₁, c, b, tr₂, rfl, hn⟩ := hw
  obtain ⟨m, m', -, hs, h₂⟩ := h.split_at
  exact absent_of_run h₂ hn ((hs.absent_iff k).mpr (.inl rfl))

/-- Where the thread has panicked, only a `cancel` clears a key. -/
theorem withdrawn_of_absent (h : Run Step (init n KEY) tr s) (hD : Deserted s) {c d : ℕ}
    (hi : .insert c d ∈ tr) (hk : s.waiting.lookup (keyOf d) = none) :
    Withdrawn tr (keyOf d) := by
  rcases cleared_of_run h hk with hn | ⟨tr₁, a, tr₂, rfl, hc, hn⟩
  · exact absurd rfl (hn _ hi)
  · have ha : a ∈ tr₁ ++ a :: tr₂ := by simp
    cases a with
    | removed c' k b =>
        have hk' : k = keyOf d := hc
        exact ⟨tr₁, c', b, tr₂, by rw [hk'], hn⟩
    | take t b => exact absurd (hD.fut t) (spawned_of_take h ha)
    | drain w =>
        have hrank := rank_of_drain h ha
        rw [hD.dropping] at hrank
        simp [Dropping.rank] at hrank
    | _ => cases hc

theorem inserted_of_run (h : Run Step (init n KEY) tr s) {c d : ℕ} (hc : s.call c = .send d) :
    .insert c d ∈ tr := by
  revert hc
  refine h.invariant (I := fun tr s => s.call c = .send d → .insert c d ∈ tr) nofun
    fun tr s a s' hr ih hs hc => ?_
  rcases hs.send hc with hc | rfl
  · exact List.mem_append_left _ (ih hc)
  · simp

/-! ### The tasks in `waiting` -/

/-- A `spawn_task` that has drawn goes on, or returns. -/
theorem Step.draw_kept {c d : ℕ} (h : Step s a s') (hd : (s.call c).draw = some d) :
    (s'.call c).draw = some d ∨ a = .spawnOk c d ∨ a = .spawnErr c d := by
  rcases h.call_cases c with he | h
  · exact .inl (he ▸ hd)
  · cases h with
    | lockInsert hp | insert hp => left; simpa [hp, Call.draw] using hd
    | spawnOk hp => right; left; simpa [hp, Call.draw] using hd
    | spawnErr hp => right; right; simpa [hp, Call.draw] using hd
    | callSpawn _ hp | fetchAdd hp | callCancel _ hp | lockRemove hp | removed hp | notWaiting hp
    | readOngoing hp | signalled hp | notFound hp => simp [hp, Call.draw] at hd

/-- A task in `waiting` is one whose `spawn_task` has not returned, has returned its key, or has
failed. -/
theorem waiting_cases (h : Run Step (init n KEY) tr s) {k b : ℕ}
    (hk : s.waiting.lookup k = some b) : InProgress s b ∨ Told tr b ∨ Refused tr b := by
  revert hk
  refine h.invariant (I := fun tr s => s.waiting.lookup k = some b →
    InProgress s b ∨ Told tr b ∨ Refused tr b) ?_ fun tr s a s' hr ih hs hk => ?_
  · intro hk
    simp [init, Manager.new] at hk
  · have progress : InProgress s b →
        InProgress s' b ∨ Told (tr ++ [a]) b ∨ Refused (tr ++ [a]) b := by
      rintro ⟨c, hc⟩
      rcases hs.draw_kept hc with hc | rfl | rfl
      · exact .inl ⟨c, hc⟩
      · exact .inr (.inl ⟨c, by simp⟩)
      · exact .inr (.inr ⟨c, by simp⟩)
    rcases hs.waiting hk with hk | ⟨c, hc⟩
    · rcases ih hk with hp | ⟨c, hm⟩ | ⟨c, hm⟩
      · exact progress hp
      · exact .inr (.inl ⟨c, List.mem_append_left _ hm⟩)
      · exact .inr (.inr ⟨c, List.mem_append_left _ hm⟩)
    · exact progress ⟨c, Call.draw_of_undelivered hc⟩

/-- A task whose `spawn_task` fails without an entry in `waiting` is out of reach. -/
theorem Quiet.of_spawnErr {c d : ℕ} (h : Run Step (init n KEY) tr s)
    (hs : Step s (.spawnErr c d) s') (hk : s.waiting.lookup (keyOf d) = none) : Quiet d s' := by
  have hI := Inv.of_run h
  have hD := Deserted.of_spawnErr h hs
  cases hs.callStep rfl with
  | spawnErr hc hr =>
      have hdraw : (s.call c).draw = some d := by rw [hc]; rfl
      refine ⟨hI.mail.draw_lt hdraw, fun c' hc' => ?_, fun k hl => ?_, fun t ht => ?_⟩
      · by_cases hcc : c' = c
        · simp [hcc, Call.undelivered] at hc'
        · dsimp only at hc'
          rw [Function.update_of_ne hcc] at hc'
          exact hcc (hI.mail.draw_inj (Call.draw_of_undelivered hc') hdraw)
      · rw [← hI.boxes.waiting_key hl] at hl
        cases hk.symm.trans hl
      · rw [hD.fut t] at ht
        cases ht

/-! ### What a `spawn_task` touches -/

/-- A step of a `spawn_task` by thread `c` that draws `d` and fails. -/
def Label.fails (c d : ℕ) : Label → Prop
  | .callSpawn c' => c' = c
  | .fetchAdd c' d' | .lockInsert c' d' | .insert c' d' | .spawnErr c' d' => c' = c ∧ d' = d
  | _ => False

/-- Between `s` and `s'` every other entry, token and permit stays as it is, and so do the futures,
the channel and the `JoinSet`; what may change is the entry of `k` in `waiting`. -/
structure Untouched (k : ℕ) (s s' : Sys) : Prop where
  waiting : ∀ k', k' ≠ k → s'.waiting.lookup k' = s.waiting.lookup k'
  ongoing : s'.ongoing = s.ongoing
  ongoingLock : s'.ongoingLock = s.ongoingLock
  cancelled : s'.cancelled = s.cancelled
  permits : s'.permits = s.permits
  fut : s'.fut = s.fut
  chan : s'.chan = s.chan
  tx : s'.tx = s.tx
  background : s'.background = s.background
  js : s'.js = s.js
  dropping : s'.dropping = s.dropping

/-- **Frame**: no step of a failing call touches more than its own entry. -/
theorem Step.untouched {c d : ℕ} (h : Step s a s') (ha : a.fails c d) :
    Untouched (keyOf d) s s' := by
  cases a with
  | callSpawn | fetchAdd | lockInsert | spawnErr =>
      cases h.callStep rfl
      exact ⟨fun _ _ => rfl, rfl, rfl, rfl, rfl, rfl, rfl, rfl, rfl, rfl, rfl⟩
  | insert c' d' =>
      obtain ⟨-, rfl⟩ := ha
      cases h.callStep rfl with
      | insert =>
          refine ⟨fun k' hk' => ?_, rfl, rfl, rfl, rfl, rfl, rfl, rfl, rfl, rfl, rfl⟩
          simp [hk']
  | _ => exact ha.elim

/-! ### What a failed `spawn_task` leaves -/

/-- Every failed `spawn_task` of the history had its entry withdrawn before it failed. -/
def Excused (tr : List Label) : Prop :=
  ∀ tr₁ c d tr₂, tr = tr₁ ++ .spawnErr c d :: tr₂ → Withdrawn tr₁ (keyOf d)

/-- The first failure of a history is excused if its entry was withdrawn. -/
theorem excused_first {c d : ℕ} (hn : ∀ c d, .spawnErr c d ∉ tr) (hw : Withdrawn tr (keyOf d)) :
    Excused (tr ++ [.spawnErr c d]) := by
  intro tr₁ c' d' tr₂ he
  rcases snoc_eq_append_cons.mp he with ⟨-, rfl, ha⟩ | ⟨tr₃, -, rfl⟩
  · rw [← (Label.spawnErr.inj ha).2]
    exact hw
  · exact absurd (by simp) (hn c' d')

/-- A run in which the failures of `spawn_task` change nothing. -/
structure Clean (n KEY : ℕ) (tr : List Label) (s : Sys) : Prop where
  /-- A failed `spawn_task` returns with its key in neither collection. -/
  failed : ∀ tr₁ c d tr₂ m m', tr = tr₁ ++ .spawnErr c d :: tr₂ → Run Step (init n KEY) tr₁ m →
    Step m (.spawnErr c d) m' → m'.waiting.lookup (keyOf d) = none ∧
      m'.ongoing.lookup (keyOf d) = none
  /-- Every other entry, every token and permit is as the other operations have left it: from its
  call to its return, no step of a failed `spawn_task` touches them. -/
  untouched : ∀ c d, .spawnErr c d ∈ tr → ∀ tr₁ a tr₂ m m', tr = tr₁ ++ a :: tr₂ → a.fails c d →
    Run Step (init n KEY) tr₁ m → Step m a m' → Untouched (keyOf d) m m'
  /-- A key in `waiting` was returned to a caller, or its `spawn_task` is in progress. -/
  told : ∀ k b, s.waiting.lookup k = some b → Told tr b ∨ InProgress s b

/-- **A failed `spawn_task` changes nothing exactly if a `cancel` has removed its entry**: along
every run, whatever the interleaving and wherever the receiver disappears. -/
theorem failed_spawn_changes_nothing_iff (h : Run Step (init n KEY) tr s) :
    Clean n KEY tr s ↔ Excused tr := by
  constructor
  · rintro hC tr₁ c d tr₂ rfl
    obtain ⟨m, m', h₁, hs, -⟩ := h.split_at
    obtain ⟨hw, -⟩ := hC.failed _ _ _ _ _ _ rfl h₁ hs
    cases hs.callStep rfl with
    | spawnErr hc hr =>
        exact withdrawn_of_absent h₁ (.of_spawnErr h₁ hs) (inserted_of_run h₁ hc) hw
  · intro hE
    refine ⟨?_, fun c d _ tr₁ a tr₂ m m' _ ha _ hs => hs.untouched ha, fun k b hk => ?_⟩
    · intro tr₁ c d tr₂ m m' he h₁ hs
      have hD := Deserted.of_spawnErr h₁ hs
      have hw := absent_of_withdrawn h₁ (hE _ _ _ _ he)
      cases hs.callStep rfl with
      | spawnErr hc hr => exact ⟨hw, hD.ongoing _⟩
    · rcases waiting_cases h hk with hp | ht | ⟨c, hr⟩
      · exact .inr hp
      · exact .inl ht
      · -- a refused task has left `waiting` for good
        obtain ⟨tr₁, tr₂, rfl⟩ := List.append_of_mem hr
        obtain ⟨m, m', h₁, hs, h₂⟩ := h.split_at
        have hw := absent_of_withdrawn h₁ (hE _ _ _ _ rfl)
        have hQ := ((Quiet.of_spawnErr h₁ hs hw).run ((Inv.of_run h₁).step hs) h₂).1
        exact absurd hk (hQ.gone k)

/-- The task of a failed `spawn_task` is never started, whether it is in `waiting` or not. -/
theorem refused_never_starts {tr' : List Label} {b : ℕ} (h : Run Step (init n KEY) tr s)
    (hr : Refused tr b) (h' : Run Step s tr' s') :
    (∀ t, .take t b ∉ tr') ∧ callbacks tr' b = [] := by
  obtain ⟨c, hr⟩ := hr
  obtain ⟨tr₁, tr₂, rfl⟩ := List.append_of_mem hr
  obtain ⟨m, m', h₁, hs, h₂⟩ := h.split_at
  have hb : m'.background = .panicked :=
    hs.background_panicked (Deserted.of_spawnErr h₁ hs).background
  have hb' : s'.background = .panicked :=
    (h₂.trans h').preserves (I := fun s => s.background = .panicked)
      (fun _ _ _ hi hs => hs.background_panicked hi) hb
  have hf := unspawned_of_run (h.trans h') (.inr hb')
  refine ⟨fun t ht => spawned_of_take (h.trans h') (List.mem_append_right _ ht) (hf t), ?_⟩
  have hsilent := silent_of_run (h.trans h') (b := b) fun t => by rw [hf t]; nofun
  rw [callbacks_append, List.append_eq_nil_iff] at hsilent
  exact hsilent.2

/-! ### A thread that panics at once -/

/-- The trace of a `spawn_task` by `c` that draws `d`, up to its send. -/
def insertTrace (c d : ℕ) : List Label :=
  [.callSpawn c, .fetchAdd c d, .lockInsert c d, .insert c d]

/-- Manager with a panicked thread, and a `spawn_task` of thread `0` that is about to send. -/
def refusing : Sys :=
  { init 1 0 with
    background := .panicked
    call := update (fun _ => .idle) 0 (.send 0)
    waiting := (∅ : TaskMap).insert 0 0
    KEY := 1 }

theorem refusing_run : Run Step (init 1 0) (.buildPanic :: insertTrace 0 0) refusing := by
  have h := Run.cons (Step.background (.buildPanic (s := init 1 0) rfl))
    (Run.cons (Step.call (.callSpawn (c := 0) rfl rfl))
    (Run.cons (Step.call (.fetchAdd (c := 0) (by simp)))
    (Run.cons (Step.call (.lockInsert (c := 0) (by simp; rfl) rfl))
    (Run.single (Step.call (.insert (c := 0) (by simp; rfl)))))))
  simpa [insertTrace, refusing, init, Manager.new, keyOf, usizeSize] using h

/-- The entry is withdrawn by a `cancel` of another thread before the send fails. -/
theorem failed_spawn_withdrawn : ∃ tr s, Run Step (init 1 0) tr s ∧ .spawnErr 0 0 ∈ tr ∧
    Clean 1 0 tr s := by
  have removed := refusing_run.trans
    (Run.cons (Step.call (.callCancel (c := 1) (k := 0) rfl (by simp [refusing])))
    (Run.cons (Step.call (.lockRemove (c := 1) (by simp; rfl) rfl))
    (Run.single (Step.call (.removed (c := 1) (b := 0) (by simp; rfl) (by simp [refusing]))))))
  have failed := removed.snoc
    (Step.call (.spawnErr (c := 0) (d := 0) (by simp [refusing]) rfl))
  refine ⟨_, _, failed, by simp,
    (failed_spawn_changes_nothing_iff failed).mpr (excused_first ?_ ?_)⟩
  · intro c d
    simp [insertTrace]
  · exact ⟨.buildPanic :: insertTrace 0 0 ++ [.callCancel 1 0, .lockRemove 1 0], 1, 0, [], rfl,
      nofun⟩

/-- The background thread could not build its runtime; the entry of the next `spawn_task` stays, is
told to nobody and is never started. -/
theorem failed_spawn_leaves_entry :
    (¬ ∀ n KEY tr s, Run Step (init n KEY) tr s →
      ∀ k b, s.waiting.lookup k = some b → Told tr b ∨ InProgress s b) ∧
    ∃ tr s, Run Step (init 1 0) tr s ∧ Refused tr 0 ∧ s.waiting.lookup 0 = some 0 ∧
      ∀ tr' s', Run Step s tr' s' → (∀ t, .take t 0 ∉ tr') ∧ callbacks tr' 0 = [] := by
  have h := refusing_run.snoc (Step.call (.spawnErr (c := 0) (d := 0) (by simp [refusing]) rfl))
  have hr : Refused (.buildPanic :: insertTrace 0 0 ++ [.spawnErr 0 0]) 0 := ⟨0, by simp⟩
  refine ⟨fun hall => ?_, _, _, h, hr, by simp [refusing],
    fun tr' s' h' => refused_never_starts h hr h'⟩
  rcases hall _ _ _ _ h 0 0 (by simp [refusing]) with ⟨c, hc⟩ | ⟨c, hc⟩
  · simp [insertTrace] at hc
  · by_cases h0 : c = 0
    · simp [h0, Call.draw] at hc
    · simp [h0, refusing, Call.draw] at hc

end CorustHackathon.TaskManager
