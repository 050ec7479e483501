import CorustHackathon.TaskManager.Permits
import CorustHackathon.TaskManager.Shutdown

/-! # Two limits on parallelism

The semaphore bounds the running tasks, and the loop stops receiving while its `JoinSet` has more
than 1024 entries.  A task that waits beside a free permit is on its way to its start, unless
the loop is stopped by 1025 futures that all hold a permit; this takes a `parallel_num` above
1025, and then it does happen. -/

namespace CorustHackathon.TaskManager

open Function (update)

variable {s s' : Sys} {a : Label}

/-- A step that brings a task closer to its start: of the thread that builds its runtime, receives a
`Task` or takes a completed entry out of the `JoinSet`, or of a future up to its `select!`. -/
def Label.progress : Label → Bool
  | .built | .receive _ | .joinNext _ | .acquire _ | .lockOngoing _ | .lockWaiting _ | .take _ _
  | .miss _ | .elseReturn _ | .enter _ _ => true
  | _ => false

/-! ### The size of the `JoinSet` -/

/-- The loop stops as soon as there are more than 1024 entries. -/
structure Capped (s : Sys) : Prop where
  loop : s.background = .build ∨ s.background = .recv → s.js.length ≤ 1024
  full : s.background = .joinNext → s.js.length = 1025

theorem Capped.backgroundStep (hC : Capped s) (h : BackgroundStep s a s') : Capped s' := by
  cases h with
  | built hb => exact ⟨fun _ => hC.loop (.inl hb), nofun⟩
  | buildPanic hb => exact ⟨fun h => by simp at h, nofun⟩
  | receive hb hc =>
      have hlen := hC.loop (.inr hb)
      constructor <;> dsimp only <;> split_ifs with hif <;> simp <;> omega
  | joinNext hb ht he =>
      have hlen := hC.full hb
      have hlen' := List.length_erase_of_mem ht
      exact ⟨fun _ => by dsimp only; omega, nofun⟩
  | closed => exact ⟨fun h => by simp at h, nofun⟩
  | joinAll hb => exact ⟨fun h => by simp [hb] at h, fun h => by simp [hb] at h⟩
  | exit => exact ⟨fun h => by simp at h, nofun⟩

theorem Capped.of_run {n KEY : ℕ} {tr : List Label} (h : Run Step (init n KEY) tr s) :
    Capped s := by
  refine h.preserves (I := Capped) (fun s a s' hC hs => ?_) ⟨by simp [init, Manager.new], nofun⟩
  have congr : s'.js = s.js → s'.background = s.background → Capped s' := fun hj hb =>
    ⟨by rw [hj, hb]; exact hC.loop, by rw [hj, hb]; exact hC.full⟩
  cases hs with
  | other => exact congr rfl rfl
  | own hs =>
      cases hs with
      | call c hs => exact congr hs.frame.js hs.frame.background
      | fut t hs => exact congr hs.frame.js hs.frame.background
      | drop hs => exact congr hs.frame.js hs.frame.background
      | background hs => exact hC.backgroundStep hs

/-! ### Progress -/

/-- A state in which a task waits that could start: the manager is alive and so is its thread,
`waiting` holds a task whose `Task` was sent, there is a permit and no lock is held. -/
structure Startable (tr : List Label) (s : Sys) : Prop where
  alive : s.dropping = .alive
  thread : s.background ≠ .panicked
  sent : ∃ k b c, s.waiting.lookup k = some b ∧ .spawnOk c b ∈ tr
  permit : 0 < s.permits
  waitingLock : s.waitingLock = .free
  ongoingLock : s.ongoingLock = .free

/-- The loop is stopped by 1025 futures that hold a permit. -/
structure Stalled (s : Sys) : Prop where
  joinNext : s.background = .joinNext
  full : s.js.length = 1025
  permits : ∀ t ∈ s.js, (s.fut t).holdsPermit = true

/-- A spawned future that has not tried to take its task can step. -/
theorem Startable.fut_progress {tr : List Label} {t : ℕ} (hS : Startable tr s) (hI : Inv s)
    (hf : (s.fut t).before = true) (ht : s.fut t ≠ .unspawned) :
    ∃ a s', Step s a s' ∧ a.progress = true := by
  have hnot : ¬ s.writesOngoing (.future t) := fun hw => by
    have hl := hI.locks.ongoing.eq_writing hw
    rw [hS.ongoingLock] at hl
    cases hl
  cases hft : s.fut t with
  | unspawned => exact absurd hft ht
  | acquire => exact ⟨_, _, .fut (.acquire hft hS.permit), rfl⟩
  | lockOngoing => exact ⟨_, _, .fut (.lockOngoing hft hS.ongoingLock), rfl⟩
  | lockWaiting | remove => exact absurd (by simp [hft]) hnot
  | elseReturn | insert | select | between | pass | polling | onErr | onCancel | lockRemove
  | removeOngoing | drop | done => rw [hft] at hf; cases hf

/-- A stalled loop takes more than 1025 permits. -/
theorem Stalled.lt {n : ℕ} (hS : Stalled s) (hM : Mail s) (hP : PermitInv n s)
    (hp : 0 < s.permits) : 1025 < n := by
  have hle : (s.js.toFinset : Set ℕ).ncard ≤ {t | (s.fut t).holdsPermit = true}.ncard :=
    Set.ncard_le_ncard (fun t ht => hS.permits t (by simpa using ht)) hP.finite
  have hadd := hP.ncard_add
  rw [Set.ncard_coe_finset, List.toFinset_card_of_nodup hM.js_nodup, hS.full] at hle
  omega

/-- **The pipeline is work-conserving up to the cap of the `JoinSet`**: when a task waits beside a
free permit and no lock is held, a step that brings a task closer to its start is enabled, unless
the loop is stopped by 1025 futures that all hold a permit, which takes a `parallel_num` above
1025. -/
theorem work_conserving {n KEY : ℕ} {tr : List Label} (h : Run Step (init n KEY) tr s)
    (hS : Startable tr s) :
    (∃ a s', Step s a s' ∧ a.progress = true) ∨ (Stalled s ∧ 1025 < n) := by
  have hI := Inv.of_run h
  have hC := Closed.of_run h
  obtain ⟨k, b, c, hl, hd⟩ := hS.sent
  have htx : s.tx = true := hC.tx.resolve_right (by simp [hS.alive, Dropping.rank])
  by_cases hb : s.fut b = .unspawned
  · -- the message is still in the channel
    have hchan : b ∈ s.chan := by
      rcases sent_of_run h hd with hc | hf | hp
      · exact hc
      · exact absurd hb hf
      · exact absurd hp hS.thread
    have hopen : ∀ x, s.background = x → x = .joinAll ∨ x = .exited → False := fun x hx ho => by
      have := (hC.chan (hx ▸ ho)).1
      rw [this] at hchan
      cases hchan
    cases hbg : s.background with
    | build => exact .inl ⟨_, _, .background (.built hbg), rfl⟩
    | recv =>
        cases hch : s.chan with
        | nil => rw [hch] at hchan; cases hchan
        | cons t rest => exact .inl ⟨_, _, .background (.receive hbg hch), rfl⟩
    | joinAll => exact absurd (.inl rfl) (hopen _ hbg)
    | exited => exact absurd (.inr rfl) (hopen _ hbg)
    | panicked => exact absurd hbg hS.thread
    | joinNext =>
        by_cases hended : ∃ t ∈ s.js, (s.fut t).ended = true
        · obtain ⟨t, ht, he⟩ := hended
          exact .inl ⟨_, _, .background (.joinNext hbg ht he), rfl⟩
        · by_cases hacq : ∃ t ∈ s.js, s.fut t = .acquire
          · obtain ⟨t, ht, ha⟩ := hacq
            exact .inl ⟨_, _, .fut (.acquire ha hS.permit), rfl⟩
          · have hstall : Stalled s := by
              refine ⟨hbg, (Capped.of_run h).full hbg, fun t ht => ?_⟩
              have h₁ : s.fut t ≠ .unspawned := hI.mail.js_spawned ht
              have h₂ : s.fut t ≠ .acquire := fun ha => hacq ⟨t, ht, ha⟩
              have h₃ : (s.fut t).ended ≠ true := fun he => hended ⟨t, ht, he⟩
              revert h₁ h₂ h₃
              cases s.fut t <;> simp [Fut.holdsPermit, Fut.ended]
            exact .inr ⟨hstall, hstall.lt hI.mail (.of_run h) hS.permit⟩
  · exact .inl (hS.fut_progress hI (hI.boxes.waiting_before hl) hb)

/-- A task that waits in the channel of an idle manager is received next. -/
theorem work_conserving_recv : ∃ a s', Step (init 1 0).built.spawned a s' ∧ a.progress = true := by
  have h := (built_run 1 0).trans (spawn_run (c := 0) rfl rfl rfl rfl)
  have hS : Startable ([.built] ++ spawnTrace 0 0) (init 1 0).built.spawned :=
    ⟨rfl, nofun, ⟨0, 0, 0, by decide, by decide⟩, Nat.one_pos, rfl, rfl⟩
  exact (work_conserving h hS).resolve_right fun hst => absurd hst.2 (by decide)

/-! ### The cap stalls a large semaphore -/

/-- The first `m` tasks of a new manager are running, and there have been no others. -/
structure Crowd (n m : ℕ) (s : Sys) : Prop where
  KEY : s.KEY = m
  permits : s.permits + m = n
  js : s.js.length = m
  fut : ∀ t, s.fut t = if t < m then .between t true else .unspawned
  cancelled : ∀ t, s.cancelled t = false

theorem Crowd.launched {n m : ℕ} (h : Crowd n m s) (hm : m < n) : Crowd n (m + 1) s.launched := by
  have hp := h.permits
  refine ⟨by simp [Sys.launched, Sys.started, Sys.spawned, h.KEY], ?_, ?_, fun t => ?_, h.cancelled⟩
  · simp only [Sys.launched, Sys.started, Sys.spawned]
    omega
  · simp [Sys.launched, Sys.started, Sys.spawned, h.js]
  · simp only [Sys.launched, Sys.started, Sys.spawned, h.KEY, h.cancelled]
    by_cases ht : t = m
    · subst ht
      simp
    · rw [Function.update_of_ne ht, h.fut]
      exact if_congr (by omega) rfl rfl

/-- Up to 1024 tasks can be running with the loop ready for more. -/
theorem crowd_run {n m : ℕ} (hn : 1025 < n) (hm : m ≤ 1024) :
    ∃ tr s, Run Step (init n 0) tr s ∧ s.Rest 0 ∧ Crowd n m s := by
  induction m with
  | zero => exact ⟨_, _, built_run n 0, .built n 0 0, rfl, rfl, rfl, fun t => rfl, fun t => rfl⟩
  | succ m ih =>
      obtain ⟨tr, s, h, hr, hc⟩ := ih (by omega)
      have hp := hc.permits
      refine ⟨_, _, h.trans (launch_run hr (by omega)), hr.launched ?_, hc.launched (by omega)⟩
      rw [hc.js]
      omega

/-- Nothing moves towards a start when all futures are in their `select!` and the loop waits for
one of them. -/
theorem Step.no_progress (h : Step s a s') (hb : s.background = .joinNext)
    (hf : ∀ t, s.fut t = .between t true ∨ s.fut t = .unspawned) : a.progress = false := by
  cases h with
  | other => rfl
  | own h =>
      cases h with
      | call c h => cases h <;> rfl
      | drop h => cases h <;> rfl
      | background h =>
          cases h with
          | built h | receive h => rw [hb] at h; cases h
          | @joinNext t h ht he => rcases hf t with hft | hft <;> rw [hft] at he <;> cases he
          | buildPanic | closed | joinAll | exit => rfl
      | fut t h =>
          cases h with
          | acquire h | lockOngoing h | lockWaiting h | take h | miss h | elseReturn h | enter h =>
              rcases hf t with hft | hft <;> rw [hft] at h <;> cases h
          | select | passBegin | pollRun | skipRun | runPending | runOk | runErr | tokenPending
          | tokenCancelled | passEnd | onErrPending | onErrReturn | onCancelPending
          | onCancelReturn | panic | lockEnd | leave | release => rfl

/-- For every `parallel_num` above 1025, 1025 running tasks stop the loop, and the next one waits
in the channel beside a free permit. -/
theorem cap_stalls {n : ℕ} (hn : 1025 < n) : ∃ tr s, Run Step (init n 0) tr s ∧
    Startable tr s ∧ Stalled s ∧ ∀ a s', Step s a s' → a.progress = false := by
  obtain ⟨tr, s, h, hr, hc⟩ := crowd_run hn le_rfl
  have hp := hc.permits
  have hc' := hc.launched (by omega)
  have hbg : s.launched.background = .joinNext := by
    simp [Sys.launched, Sys.started, Sys.spawned, hc.js]
  have hfut : ∀ t, s.launched.fut t = .between t true ∨ s.launched.fut t = .unspawned := by
    intro t
    rw [hc'.fut]
    split_ifs
    · exact .inl rfl
    · exact .inr rfl
  have hrun := (h.trans (launch_run hr (by omega))).trans
    (spawn_run (s := s.launched) (c := 0) hr.alive hr.idle rfl (by rw [hbg]; rfl))
  have hpermits := hc'.permits
  refine ⟨_, _, hrun, ⟨hr.alive, ?_,
    ⟨keyOf s.launched.KEY, s.launched.KEY, 0, ?_, ?_⟩, ?_, rfl, rfl⟩,
    ⟨hbg, ?_, fun t ht => ?_⟩, fun a s' hs => hs.no_progress hbg hfut⟩
  · simp [Sys.spawned, hbg]
  · simp [Sys.spawned]
  · exact List.mem_append_right _ (by simp [spawnTrace])
  · simp only [Sys.spawned]; omega
  · simp only [Sys.spawned, hc'.js]
  · rcases hfut t with hft | hft
    · simp [Sys.spawned, hft, Fut.holdsPermit]
    · exact absurd hft ((Inv.of_run (h.trans (launch_run hr (by omega)))).mail.js_spawned ht)

/-- **With a semaphore of 1026 the pipeline can stall beside a free permit.** -/
theorem work_conserving_stalls : ∃ tr s, Run Step (init 1026 0) tr s ∧ Startable tr s ∧
    ¬ ∃ a s', Step s a s' ∧ a.progress = true := by
  obtain ⟨tr, s, h, hS, -, hn⟩ := cap_stalls (n := 1026) (by omega)
  refine ⟨tr, s, h, hS, ?_⟩
  rintro ⟨a, s', hs, ha⟩
  rw [hn a s' hs] at ha
  cases ha

end CorustHackathon.TaskManager
