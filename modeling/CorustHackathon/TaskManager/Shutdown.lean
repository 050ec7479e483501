import CorustHackathon.TaskManager.Endings

/-! # Shutdown

`Drop` empties `waiting`, then cancels what is in `ongoing`, then lets go of the sender and waits
for the thread.  A future in the middle of the move from the one to the other holds `ongoing`, so
the second step of `Drop` waits for it and finds its context.  The thread ends when the channel
is empty and every entry of the `JoinSet` has been taken out, and an entry is taken out when its
future has ended. -/

namespace CorustHackathon.TaskManager

open Function (update)

variable {s s' : Sys} {a : Label}

/-! ### After the drain -/

/-- Nothing is in `waiting` once it was drained. -/
theorem waiting_of_rank {n KEY : ℕ} {tr : List Label} (h : Run Step (init n KEY) tr s)
    (hr : 3 ≤ s.dropping.rank) (k : ℕ) : s.waiting.lookup k = none := by
  revert hr
  refine h.invariant (I := fun _ s => 3 ≤ s.dropping.rank → s.waiting.lookup k = none)
    (by simp [init, Manager.new]) fun tr s a s' hr ih hs hrank => ?_
  refine Option.eq_none_iff_forall_ne_some.mpr fun b hb => ?_
  by_cases hold : 3 ≤ s.dropping.rank
  · rcases hs.waiting hb with hl | ⟨c, hc⟩
    · rw [ih hold] at hl; cases hl
    · have hidle : s.call c ≠ .idle := fun hi => by rw [hi] at hc; cases hc
      rw [alive_of_run hr hidle] at hold
      simp [Dropping.rank] at hold
  · -- only the drain itself gets `Drop` that far
    have hdrop : DropStep s a s' := by
      cases hs with
      | other => exact absurd hrank hold
      | own hs =>
          cases hs with
          | call c hs => rw [hs.frame.dropping] at hrank; exact absurd hrank hold
          | fut t hs => rw [hs.frame.dropping] at hrank; exact absurd hrank hold
          | background hs => rw [hs.frame.dropping] at hrank; exact absurd hrank hold
          | drop hs => exact hs
    cases hdrop with
    | drain => simp at hb
    | dropBegin | dropLockWaiting => simp [Dropping.rank] at hrank
    | dropLockOngoing h | cancelAll h | takeTx h | joinOk h | joinErr h =>
        simp [h, Dropping.rank] at hold

/-- No future takes a task after the drain. -/
theorem no_take_of_rank {n KEY : ℕ} {tr tr' : List Label} (h : Run Step (init n KEY) tr s)
    (hr : 3 ≤ s.dropping.rank) (h' : Run Step s tr' s') (t b : ℕ) : .take t b ∉ tr' := fun hm => by
  obtain ⟨u, v, rfl⟩ := List.append_of_mem hm
  obtain ⟨m, m', h₁, hs, _⟩ := h'.split_at
  have hrank : 3 ≤ m.dropping.rank := hr.trans (rank_le_of_run h₁)
  cases hs.futStep rfl with
  | take ht hl => rw [waiting_of_rank (h.trans h₁) hrank] at hl; cases hl

/-! ### After the cancel pass -/

/-- Every future between taking its task and leaving its `select!` has a cancelled token. -/
def AllCancelled (s : Sys) : Prop :=
  ∀ t b, (s.fut t).box = some b → (s.fut t).past = false → s.cancelled t = true

/-- The cancel pass reaches every future that has taken its task. -/
theorem AllCancelled.of_cancelAll (hI : Inv s) (hR : Registered s)
    (h : Step s .cancelAll s') : AllCancelled s' := by
  cases h.dropStep rfl with
  | cancelAll hd =>
      intro t b hb hp
      have hent : (s.fut t).entered = true := by
        have hnot : ¬ s.writesOngoing (.future t) := fun hw => by
          have := hI.locks.ongoing.write_unique hw (show s.writesOngoing .dropper by simp [hd])
          cases this
        revert hb hp hnot
        cases hft : s.fut t <;> simp [Fut.box, Fut.past, Fut.entered, hft]
      simp only [Bool.or_eq_true, decide_eq_true_eq, hasToken_iff]
      exact .inr ⟨_, hR (.inl hent)⟩

theorem AllCancelled.step {n KEY : ℕ} {tr : List Label} (hA : AllCancelled s)
    (hr : Run Step (init n KEY) tr s) (hrank : 3 ≤ s.dropping.rank) (h : Step s a s') :
    AllCancelled s' := by
  intro t b hb hp
  have hM := (Inv.of_run hr).mail
  refine h.cancelled (hA t b ?_ ?_)
  · rcases hM.fut_cases h with ⟨u, hf⟩ | ⟨_, hf⟩
    · by_cases hut : t = u
      · subst hut
        rcases hf.boxes with ⟨b', _, hl, _⟩ | ⟨_, hbox, _⟩
        · rw [waiting_of_rank hr hrank] at hl; cases hl
        · rwa [← hbox]
      · rwa [hf.frame.others t hut] at hb
    · rcases hf t with he | he
      · rwa [he] at hb
      · rw [he.2] at hb; cases hb
  · rw [← Bool.not_eq_true]
    intro hpast
    rcases hM.fut_cases h with ⟨u, hf⟩ | ⟨_, hf⟩
    · by_cases hut : t = u
      · subst hut; rw [hf.past hpast] at hp; cases hp
      · rw [hf.frame.others t hut, hpast] at hp; cases hp
    · rcases hf t with he | he
      · rw [he, hpast] at hp; cases hp
      · rw [he.1] at hpast; cases hpast

/-! ### After the thread has ended -/

/-- The background thread leaves its loop when the channel is empty for good. -/
structure Closed (s : Sys) : Prop where
  tx : s.tx = true ∨ 6 ≤ s.dropping.rank
  chan : s.background = .joinAll ∨ s.background = .exited → s.chan = [] ∧ s.tx = false
  js : s.background = .exited → s.js = []
  returned : s.dropping = .returned → s.background = .exited

namespace Closed

theorem init (n KEY : ℕ) : Closed (init n KEY) := by
  constructor <;> simp [TaskManager.init, Manager.new]

/-- A step that leaves the channel, the thread and `Drop`. -/
theorem congr (hC : Closed s) (htx : s'.tx = s.tx) (hchan : s'.chan = s.chan) (hjs : s'.js = s.js)
    (hb : s'.background = s.background) (hd : s'.dropping = s.dropping) : Closed s' where
  tx := by rw [htx, hd]; exact hC.tx
  chan := by rw [hb, hchan, htx]; exact hC.chan
  js := by rw [hb, hjs]; exact hC.js
  returned := by rw [hd, hb]; exact hC.returned

theorem callStep {c : ℕ} (hC : Closed s) (hidle : s.call c ≠ .idle → s.dropping = .alive)
    (h : CallStep c s a s') : Closed s' := by
  cases h with
  | @spawnOk d hc hr =>
      refine ⟨hC.tx, fun hb => ?_, hC.js, hC.returned⟩
      -- the sender is there, so the thread is still in its loop
      have hrank := hC.tx.resolve_left (by rw [(hC.chan hb).2]; nofun)
      rw [hidle (by rw [hc]; nofun)] at hrank
      simp [Dropping.rank] at hrank
  | callSpawn | fetchAdd | lockInsert | insert | spawnErr | callCancel | lockRemove | removed
  | notWaiting | readOngoing | signalled | notFound => exact hC.congr rfl rfl rfl rfl rfl

theorem backgroundStep (hC : Closed s) (h : BackgroundStep s a s') : Closed s' := by
  have hret : s.background ≠ .exited → ∀ x : Background, s.dropping = .returned → x = .exited :=
    fun hb _ hd => absurd (hC.returned hd) hb
  cases h with
  | built hb | buildPanic hb =>
      exact ⟨hC.tx, by simp, by simp, hret (by rw [hb]; nofun) _⟩
  | receive hb hc =>
      refine ⟨hC.tx, ?_, ?_, hret (by rw [hb]; nofun) _⟩
      · dsimp only; split_ifs <;> simp
      · dsimp only; split_ifs <;> simp
  | joinNext hb => exact ⟨hC.tx, by simp, by simp, hret (by rw [hb]; nofun) _⟩
  | closed hb hc ht => exact ⟨hC.tx, fun _ => ⟨hc, ht⟩, by simp, hret (by rw [hb]; nofun) _⟩
  | joinAll hb =>
      exact ⟨hC.tx, hC.chan, fun he => absurd (hb.symm.trans he) nofun, hC.returned⟩
  | exit hb hj => exact ⟨hC.tx, fun _ => hC.chan (.inl hb), fun _ => hj, fun _ => rfl⟩

theorem dropStep (hC : Closed s) (h : DropStep s a s') : Closed s' := by
  have hrank := h.rank_lt
  have htx : s.tx = true ∨ 6 ≤ s'.dropping.rank := hC.tx.imp_right fun h6 => h6.trans hrank.le
  cases h with
  | takeTx hd => exact ⟨.inr le_rfl, fun hb => ⟨(hC.chan hb).1, rfl⟩, hC.js, by simp⟩
  | joinOk hd hb => exact ⟨htx, hC.chan, hC.js, fun _ => hb⟩
  | dropBegin | dropLockWaiting | drain | dropLockOngoing | cancelAll | joinErr =>
      exact ⟨htx, hC.chan, hC.js, by simp⟩

theorem of_run {n KEY : ℕ} {tr : List Label} (h : Run Step (TaskManager.init n KEY) tr s) :
    Closed s := by
  refine h.invariant (I := fun _ => Closed) (.init n KEY) fun tr s a s' hr hC hs => ?_
  cases hs with
  | other => exact hC.congr rfl rfl rfl rfl rfl
  | own hs =>
      cases hs with
      | call c hs => exact hC.callStep (alive_of_run hr) hs
      | fut t hs =>
          have f := hs.frame
          exact hC.congr f.tx f.chan f.js f.background f.dropping
      | background hs => exact hC.backgroundStep hs
      | drop hs => exact hC.dropStep hs

end Closed

/-- What holds when `Drop` has returned after a run with the trace `tr`. -/
structure Quiescent (tr : List Label) (s : Sys) : Prop where
  /-- Every `Task` ever sent was received, and its future has ended. -/
  received : ∀ c d, .spawnOk c d ∈ tr → .receive d ∈ tr ∧ (s.fut d).ended = true
  /-- No future was given up unfinished. -/
  ended : ∀ t, s.fut t = .unspawned ∨ (s.fut t).ended = true
  waiting : s.waiting = ∅
  chan : s.chan = []
  js : s.js = []
  /-- No callback of a task is being executed. -/
  callbacks : ∀ t, (s.fut t).inCallback = false

theorem Quiescent.of_run {n KEY : ℕ} {tr : List Label} (h : Run Step (init n KEY) tr s)
    (hd : s.dropping = .returned) : Quiescent tr s := by
  have hC := Closed.of_run h
  have hb := hC.returned hd
  have hended : ∀ t, s.fut t = .unspawned ∨ (s.fut t).ended = true := fun t => by
    by_cases ht : s.fut t = .unspawned
    · exact .inl ht
    · exact .inr (((Inv.of_run h).mail.js_unended ht).resolve_left (by rw [hC.js hb]; nofun))
  refine ⟨fun c d hm => ?_, hended, ?_, (hC.chan (.inr hb)).1, hC.js hb, fun t => ?_⟩
  · rcases sent_of_run h hm with hc | hf | hp
    · rw [(hC.chan (.inr hb)).1] at hc; cases hc
    · exact ⟨received_of_run h hf, (hended d).resolve_left hf⟩
    · rw [hb] at hp; cases hp
  · refine Finmap.ext_lookup fun k => ?_
    rw [waiting_of_rank h (by rw [hd]; decide), Finmap.lookup_empty]
  · rcases hended t with ht | ht
    · rw [ht]; rfl
    · revert ht
      cases s.fut t <;> simp [Fut.ended, Fut.inCallback]

/-- **Shutdown is complete and final**: for every run on which `Drop` begins in `s₀`, no task is
taken from `waiting` after the drain; after the cancel pass every task that has left `waiting` and
not finished its `select!` has a cancelled token, while `KEY` is drawn at most `2 ^ 64` times; and
when `Drop` has returned everything that was sent has been received and has ended. -/
theorem shutdown_complete {n KEY : ℕ} {tr₀ tr : List Label} {s₀ s₁ : Sys}
    (h₀ : Run Step (init n KEY) tr₀ s₀) (hb : Step s₀ .dropBegin s₁) (h : Run Step s₁ tr s) :
    (∀ u w v, tr = u ++ .drain w :: v → s.waiting = ∅ ∧ ∀ t b, .take t b ∉ v) ∧
    (.cancelAll ∈ tr → s.KEY ≤ usizeSize → AllCancelled s) ∧
    (s.dropping = .returned → Quiescent (tr₀ ++ .dropBegin :: tr) s) := by
  have h₁ := h₀.snoc hb
  have hrun := h₁.trans h
  refine ⟨?_, fun hc hK => ?_, fun hd => ?_⟩
  · rintro u w v rfl
    obtain ⟨m, m', hu, hs, hv⟩ := h.split_at
    have hrank := hs.rank_of_drain
    refine ⟨Finmap.ext_lookup fun k => ?_, no_take_of_rank ((h₁.trans hu).snoc hs) hrank hv⟩
    rw [Finmap.lookup_empty, waiting_of_rank hrun]
    exact hrank.trans (rank_le_of_run hv)
  · obtain ⟨u, v, rfl⟩ := List.append_of_mem hc
    obtain ⟨m, m', hu, hs, hv⟩ := h.split_at
    have hm := h₁.trans hu
    have hKm : m.KEY ≤ usizeSize := hs.KEY_le.trans ((KEY_le_of_run hv).trans hK)
    have hA := AllCancelled.of_cancelAll (Inv.of_run hm) (refines hm hKm).2.2 hs
    have hrank : 3 ≤ m'.dropping.rank := by
      cases hs.dropStep rfl with | cancelAll hd => simp [Dropping.rank]
    refine (hv.invariant (I := fun _ s => AllCancelled s ∧ 3 ≤ s.dropping.rank) ⟨hA, hrank⟩ ?_).1
    exact fun tr' m₁ a m₂ hr hi hstep =>
      ⟨hi.1.step ((hm.snoc hs).trans hr) hi.2 hstep, hi.2.trans hstep.rank_le⟩
  · have := Quiescent.of_run hrun hd
    simpa using this

/-- The `Drop` of a manager with a running task. -/
theorem shutdown_complete_running : ∃ tr s, s.dropping = .returned ∧ AllCancelled s ∧
    Quiescent ([.built] ++ launchTrace 0 0 ++ .dropBegin :: tr) s := by
  have h₀ := (built_run 1 0).trans (launch_run (.built 1 0 0) Nat.one_pos)
  have hb : Step (init 1 0).built.launched .dropBegin _ := .drop (.dropBegin rfl fun _ => rfl)
  have hd := drop_run (s := { (init 1 0).built.launched with dropping := .lockWaiting }) rfl rfl rfl
  have h := ((((hd.trans (cancelled_run (t := 0) (b := 0) rfl (by decide) rfl)).snoc
    (.background (.closed rfl rfl rfl))).snoc
    (.background (.joinAll (t := 0) rfl (List.mem_singleton.mpr rfl) rfl))).snoc
    (.background (.exit rfl rfl))).snoc (.drop (.joinOk rfl rfl))
  have hs := shutdown_complete h₀ hb h
  exact ⟨_, _, rfl, hs.2.1 (by simp [dropTrace]) (by decide), hs.2.2 rfl⟩

/-- **After `2 ^ 64` draws a task can escape the shutdown**: of two running tasks with the same
key, the cancel pass of `Drop` reaches the first. -/
theorem shutdown_misses_after_wrap : ∃ tr₀ s₀ s₁ tr s, Run Step (init 2 0) tr₀ s₀ ∧
    Step s₀ .dropBegin s₁ ∧ Run Step s₁ tr s ∧ .cancelAll ∈ tr ∧ ¬ AllCancelled s ∧
    s.fut usizeSize = .between usizeSize true ∧ s.cancelled usizeSize = false :=
  ⟨_, _, _, _, _, wrapped_run, .drop (.dropBegin rfl fun _ => rfl), drop_run rfl rfl rfl,
    by simp [dropTrace], fun hA => absurd (hA usizeSize usizeSize rfl rfl) (by decide), rfl,
    by decide⟩

end CorustHackathon.TaskManager
