import CorustHackathon.BasicTaskManager.Tasks

/-! # Sleep tasks over whole runs

What a run of the manager shows of its tasks, and what can still become of them. -/

namespace CorustHackathon.BasicTaskManager

open Function (update)

variable {s s' : Sys} {a : Label} {tr : List Label} {k : ℕ}

/-- The duration of a call that returned `Ok`. -/
def Label.sent : Label → List (ℕ × ℕ)
  | .sendOk k d => [(k, d)]
  | _ => []

def Label.spawned : Label → List (ℕ × ℕ)
  | .spawn k d => [(k, d)]
  | _ => []

/-- The events of the task `k`. -/
def Label.event (k : ℕ) : Label → List Label
  | .spawn j d => if j = k then [.spawn j d] else []
  | .started j d => if j = k then [.started j d] else []
  | .finished j d => if j = k then [.finished j d] else []
  | _ => []

/-- The events of a task with the duration `d` that runs to its end. -/
def life (k d : ℕ) : List Label := [.spawn k d, .started k d, .finished k d]

/-- The events of the task `k` up to its place. -/
def Task.Lived (k : ℕ) (events : List Label) : Task → Prop
  | absent => events = []
  | start d => events = [.spawn k d]
  | sleep d => events = [.spawn k d, .started k d]
  | finished => ∃ d, events = life k d
  | panicked | dropped => ∃ d, events <+: life k d

theorem Task.Lived.life {p : Task} {events : List Label} (h : p.Lived k events) :
    ∃ d, events <+: life k d := by
  cases p with
  | absent =>
      obtain rfl : events = [] := h
      exact ⟨0, List.nil_prefix⟩
  | start d =>
      obtain rfl : events = [.spawn k d] := h
      exact ⟨d, [.started k d, .finished k d], rfl⟩
  | sleep d =>
      obtain rfl : events = [.spawn k d, .started k d] := h
      exact ⟨d, [.finished k d], rfl⟩
  | finished =>
      obtain ⟨d, he⟩ := h
      exact ⟨d, he ▸ List.prefix_rfl⟩
  | panicked | dropped => exact h

structure History (tr : List Label) (s : Sys) : Prop where
  flow : s.thread ≠ .panicked →
    tr.flatMap Label.spawned ++ (s.thread.pending ++ s.queue) = tr.flatMap Label.sent
  fifo : tr.flatMap Label.spawned <+: tr.flatMap Label.sent
  lives : ∀ k, (s.task k).Lived k (tr.flatMap (Label.event k))
  panicked : s.thread = .panicked → .buildPanics ∈ tr
  errs : .sendErr ∈ tr → .buildPanics ∈ tr

theorem History.init : History [] init where
  flow _ := rfl
  fifo := List.nil_prefix
  lives _ := rfl
  panicked h := by cases h
  errs := nofun

/-- A step without an event of a task. -/
theorem History.silent (h : History tr s) (ha : a.spawned = [] ∧ a.sent = [] ∧ a ≠ .sendErr)
    (hevent : ∀ k, a.event k = [])
    (hflow : s'.thread ≠ .panicked → s.thread ≠ .panicked ∧
      s'.thread.pending ++ s'.queue = s.thread.pending ++ s.queue)
    (htask : ∀ k events, (s.task k).Lived k events → (s'.task k).Lived k events)
    (hpanicked : s'.thread = .panicked → s.thread = .panicked ∨ a = .buildPanics) :
    History (tr ++ [a]) s' := by
  obtain ⟨hspawned, hsent, herr⟩ := ha
  have htr : (tr ++ [a]).flatMap Label.spawned = tr.flatMap Label.spawned := by simp [hspawned]
  have htr' : (tr ++ [a]).flatMap Label.sent = tr.flatMap Label.sent := by simp [hsent]
  refine ⟨fun hp => ?_, ?_, fun k => ?_, fun hp => ?_, fun he => ?_⟩
  · obtain ⟨hp, hq⟩ := hflow hp
    rw [htr, htr', hq, h.flow hp]
  · rw [htr, htr']
    exact h.fifo
  · rw [List.flatMap_append, List.flatMap_singleton, hevent, List.append_nil]
    exact htask k _ (h.lives k)
  · rcases hpanicked hp with hp | rfl
    · exact List.mem_append_left _ (h.panicked hp)
    · exact List.mem_append_right _ (List.mem_singleton_self _)
  · refine List.mem_append_left _ (h.errs ?_)
    simpa [herr.symm] using he

theorem History.owner (h : History tr s) (hs : OwnerStep s a s') : History (tr ++ [a]) s' := by
  cases hs with
  | @sendOk d htx hp =>
      have hflow := h.flow hp
      refine ⟨fun _ => ?_, ?_, fun k => ?_, fun hp' => absurd hp' hp, fun he => ?_⟩
      · rw [List.flatMap_append, List.flatMap_append, ← hflow]
        simp [Label.spawned, Label.sent]
      · rw [List.flatMap_append, List.flatMap_append]
        simpa [Label.spawned] using h.fifo.trans (List.prefix_append _ _)
      · rw [List.flatMap_append]
        simpa [Label.event] using h.lives k
      · exact List.mem_append_left _ (h.errs (by simpa using he))
  | sendErr htx hp =>
      refine ⟨fun hn => absurd hp hn, ?_, fun k => ?_, fun _ => ?_, fun _ => ?_⟩
      · simpa [Label.spawned, Label.sent] using h.fifo
      · rw [List.flatMap_append]
        simpa [Label.event] using h.lives k
      · exact List.mem_append_left _ (h.panicked hp)
      · exact List.mem_append_left _ (h.panicked hp)
  | dropManager htx =>
      exact h.silent ⟨rfl, rfl, nofun⟩ (fun _ => rfl) (fun hp => ⟨hp, rfl⟩) (fun _ _ => id) .inl

/-- The thread goes on, without an event of a task. -/
theorem History.goesOn (h : History tr s) {p : Thread} {queue : List (ℕ × ℕ)}
    (ha : a.spawned = [] ∧ a.sent = [] ∧ a ≠ .sendErr) (hevent : ∀ k, a.event k = [])
    (hs : s.thread ≠ .panicked) (hp : p ≠ .panicked)
    (hflow : p.pending ++ queue = s.thread.pending ++ s.queue) :
    History (tr ++ [a]) { s with thread := p, queue := queue } :=
  h.silent ha hevent (fun _ => ⟨hs, hflow⟩) (fun _ _ => id) fun hpanicked => absurd hpanicked hp

theorem History.thread (hI : Inv s) (h : History tr s) (hs : ThreadStep s a s') :
    History (tr ++ [a]) s' := by
  cases hs with
  | build hb =>
      exact h.goesOn ⟨rfl, rfl, by simp⟩ (fun _ => rfl) (by simp [hb]) (by simp)
        (by simp [hb, Thread.pending])
  | buildPanics hb =>
      exact h.silent ⟨rfl, rfl, by simp⟩ (fun _ => rfl) (fun hn => absurd rfl hn) (fun _ _ => id)
        fun _ => .inr rfl
  | recv hr hq =>
      exact h.goesOn ⟨rfl, rfl, by simp⟩ (fun _ => rfl) (by simp [hr]) (by simp)
        (by simp [hr, hq, Thread.pending])
  | closed hr hq htx =>
      exact h.goesOn ⟨rfl, rfl, by simp⟩ (fun _ => rfl) (by simp [hr]) (by simp)
        (by simp [hr, Thread.pending])
  | ended hd hl =>
      exact h.goesOn ⟨rfl, rfl, by simp⟩ (fun _ => rfl) (by simp [hd]) (by simp)
        (by simp [hd, Thread.pending])
  | @cut j hd hl =>
      refine h.silent ⟨rfl, rfl, by simp⟩ (fun _ => rfl) (fun _ => ⟨by simp [hd], rfl⟩)
        (fun k events hk => ?_) fun hp => .inl hp
      by_cases hkj : k = j
      · subst hkj
        show (update s.task k .dropped k).Lived k events
        rw [Function.update_self]
        exact hk.life
      · show (update s.task j .dropped k).Lived k events
        rwa [Function.update_of_ne hkj]
  | @spawn j d hp =>
      have hflow := h.flow (by simp [hp])
      rw [hp] at hflow
      refine ⟨fun _ => ?_, ?_, fun k => ?_, by simp, fun he => ?_⟩
      · rw [List.flatMap_append, List.flatMap_append, ← hflow]
        simp [Label.spawned, Label.sent, Thread.pending]
      · rw [List.flatMap_append, List.flatMap_append, ← hflow]
        exact ⟨s.queue, by simp [Label.spawned, Label.sent, Thread.pending]⟩
      · rw [List.flatMap_append]
        by_cases hkj : k = j
        · subst hkj
          have hlived := h.lives k
          rw [(hI.absent_of_spawn hp).1] at hlived
          have hnil : tr.flatMap (Label.event k) = [] := hlived
          rw [hnil]
          show (update s.task k _ k).Lived k _
          rw [Function.update_self]
          simp [Label.event, Task.Lived]
        · show (update s.task j _ k).Lived k _
          rw [Function.update_of_ne hkj]
          simpa [Label.event, Ne.symm hkj] using h.lives k
      · exact List.mem_append_left _ (h.errs (by simpa using he))

/-- The task `j` moves, and its event is `a`. -/
theorem History.move (h : History tr s) {j : ℕ} {p : Task}
    (ha : a.spawned = [] ∧ a.sent = [] ∧ a ≠ .sendErr)
    (hp : p.Lived j (tr.flatMap (Label.event j) ++ a.event j))
    (hother : ∀ k, k ≠ j → a.event k = []) :
    History (tr ++ [a]) { s with task := update s.task j p } := by
  obtain ⟨hspawned, hsent, herr⟩ := ha
  have htr : (tr ++ [a]).flatMap Label.spawned = tr.flatMap Label.spawned := by simp [hspawned]
  have htr' : (tr ++ [a]).flatMap Label.sent = tr.flatMap Label.sent := by simp [hsent]
  refine ⟨fun hn => ?_, ?_, fun k => ?_, fun hn => List.mem_append_left _ (h.panicked hn),
    fun he => ?_⟩
  · rw [htr, htr']
    exact h.flow hn
  · rw [htr, htr']
    exact h.fifo
  · rw [List.flatMap_append, List.flatMap_singleton]
    by_cases hkj : k = j
    · subst hkj
      show (update s.task k p k).Lived k _
      rw [Function.update_self]
      exact hp
    · show (update s.task j p k).Lived k _
      rw [Function.update_of_ne hkj, hother k hkj, List.append_nil]
      exact h.lives k
  · refine List.mem_append_left _ (h.errs ?_)
    simpa [herr.symm] using he

theorem History.task (h : History tr s) {j : ℕ} (hs : TaskStep j s a s') :
    History (tr ++ [a]) s' := by
  have hlived := h.lives j
  cases hs with
  | @started d hp =>
      rw [hp] at hlived
      have he : tr.flatMap (Label.event j) = [.spawn j d] := hlived
      exact h.move ⟨rfl, rfl, nofun⟩ (by simp [he, Label.event, Task.Lived])
        fun k hk => if_neg (Ne.symm hk)
  | @finished d hp =>
      rw [hp] at hlived
      have he : tr.flatMap (Label.event j) = [.spawn j d, .started j d] := hlived
      refine h.move ⟨rfl, rfl, nofun⟩ ⟨d, ?_⟩ fun k hk => if_neg (Ne.symm hk)
      simp [he, Label.event, life]
  | printPanics hl =>
      refine h.move ⟨rfl, rfl, nofun⟩ ?_ fun _ _ => rfl
      rw [show (Label.printPanics j).event j = [] from rfl, List.append_nil]
      exact hlived.life

theorem history (h : Run Step init tr s) : History tr s := by
  refine h.invariant .init fun tr s a s' hr hi hs => ?_
  cases hs with
  | owner hs => exact hi.owner hs
  | thread hs => exact hi.thread (inv hr) hs
  | task k hs => exact hi.task hs

/-! ### Every run -/

/-- What a run of the manager shows, and what can become of the tasks after it. -/
structure SleepTasks (tr : List Label) (s : Sys) : Prop where
  /-- The tasks are spawned in the order of the calls, with their durations. -/
  fifo : tr.flatMap Label.spawned <+: tr.flatMap Label.sent
  /-- A task is spawned, starts and finishes in this order, and each once at most. -/
  lives : ∀ k, ∃ d, tr.flatMap (Label.event k) <+: life k d
  /-- A call fails only when the runtime could not be built. -/
  errs : .sendErr ∈ tr → .buildPanics ∈ tr
  /-- Once the runtime is built, all tasks run to their ends while the manager is kept. -/
  kept : s.tx = true → (s.thread = .recv ∨ ∃ k d, s.thread = .spawn k d) →
    Finishes (Guarded Step Kept) (Label.serves s.accepted)
      (fun s' => ∀ k < s.accepted, (s'.task k).Done) (s.toServe s.accepted) s
  /-- But each that has not come to its end can still be lost for good. -/
  lost : ∀ k < s.accepted, ¬ (s.task k).Done → ∃ tr' s', Run Step s tr' s' ∧
    ∀ tr'' s'', Run Step s' tr'' s'' → Lost k s''
  /-- Without the manager, the thread comes to its end. -/
  ends : s.tx = false → Finishes Step (fun _ => true) (·.thread.Over) s.toGo s

/-- **An accepted task is sure to run only while the manager is kept.** -/
theorem sleep_tasks (h : Run Step init tr s) : SleepTasks tr s := by
  have hI := inv h
  have hH := history h
  refine ⟨hH.fifo, fun k => (hH.lives k).life, hH.errs, fun htx hr => ?_, fun k hk hd => ?_,
    fun htx => ?_⟩
  · exact (Serving.mk hI htx hr le_rfl).finishes
  · obtain ⟨tr', s', hr, hl⟩ := hI.canLose hk hd
    have hI' : Inv s' := hr.preserves (fun _ _ _ hi hs => hi.step hs) hI
    exact ⟨tr', s', hr, fun _ _ hr' => hl.run hI' hr'⟩
  · exact (Alone.mk hI htx).finishes

/-- A task that has started, and the manager is dropped. -/
theorem sleep_tasks_dropped : ∃ tr s, .started 0 3 ∈ tr ∧ s.tx = false ∧ SleepTasks tr s := by
  have hrun : ∃ s, Run Step init [.build, .sendOk 0 3, .recv 0 3, .spawn 0 3, .started 0 3,
      .dropManager] s ∧ s.tx = false :=
    ⟨_, .cons (.thread (.build rfl)) <| .cons (.owner (.sendOk rfl nofun)) <|
      .cons (.thread (.recv rfl rfl)) <| .cons (.thread (.spawn rfl)) <|
      .cons (.task 0 (.started rfl)) <| .single (.owner (.dropManager rfl)), rfl⟩
  obtain ⟨s, hr, htx⟩ := hrun
  exact ⟨_, s, by simp, htx, sleep_tasks hr⟩

end CorustHackathon.BasicTaskManager
