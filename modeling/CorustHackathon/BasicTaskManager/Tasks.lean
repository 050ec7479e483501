import CorustHackathon.Termination
import CorustHackathon.BasicTaskManager.Manager

/-! # What becomes of the tasks

The durations are taken in the order of the calls, and the events of each task come once and in
their order.  While the manager is kept, all tasks that have been accepted run to their ends.  But
nothing waits for them: as long as a task has not finished, the manager can be dropped and the task
be lost, whether it sleeps, has not been polled, or has not even been received.  The thread itself
is no zombie: it ends once the manager is gone. -/

namespace CorustHackathon.BasicTaskManager

open Function (update)

variable {s s' : Sys} {a : Label} {tr : List Label} {k : ℕ}

/-! ### The invariant -/

/-- The duration that has been received and not spawned. -/
def Thread.pending : Thread → List (ℕ × ℕ)
  | spawn k d => [(k, d)]
  | _ => []

structure Inv (s : Sys) : Prop where
  /-- The tasks below some `m` are spawned, the others are on their way in their order. -/
  flow : s.thread ≠ .panicked → ∃ m ≤ s.accepted, (∀ k, s.task k = .absent ↔ m ≤ k) ∧
    (s.thread.pending ++ s.queue).map Prod.fst = List.range' m (s.accepted - m)
  /-- Without a runtime there are no tasks. -/
  unspawned : s.thread = .build ∨ s.thread = .panicked → ∀ k, s.task k = .absent
  closing : s.thread = .shutdown ∨ s.thread = .ended → s.tx = false ∧ s.queue = []
  dropped : ∀ k, s.task k = .dropped → s.thread = .shutdown ∨ s.thread = .ended
  gone : s.thread = .ended → ∀ k, ¬ (s.task k).Live

theorem Inv.init : Inv init where
  flow _ := ⟨0, le_rfl, fun k => iff_of_true rfl (Nat.zero_le k), rfl⟩
  unspawned _ _ := rfl
  closing h := by rcases h with h | h <;> cases h
  dropped k h := by cases h
  gone h := by cases h

theorem Inv.owner (h : Inv s) (hs : OwnerStep s a s') : Inv s' := by
  cases hs with
  | @sendOk d htx hp =>
      refine ⟨fun _ => ?_, h.unspawned, fun hc => ?_, h.dropped, h.gone⟩
      · obtain ⟨m, hm, habsent, hqueue⟩ := h.flow hp
        refine ⟨m, hm.trans (Nat.le_succ _), habsent, ?_⟩
        have hlast : m + (s.accepted - m) = s.accepted := by omega
        rw [← List.append_assoc, List.map_append, hqueue, Nat.succ_sub hm, List.range'_1_concat,
          hlast]
        rfl
      · have := (h.closing hc).1
        rw [htx] at this
        cases this
  | sendErr htx hp => exact h
  | dropManager htx =>
      exact ⟨h.flow, h.unspawned, fun hc => ⟨rfl, (h.closing hc).2⟩, h.dropped, h.gone⟩

theorem Inv.thread (h : Inv s) (hs : ThreadStep s a s') : Inv s' := by
  cases hs with
  | build hb =>
      refine ⟨fun _ => ?_, fun hu => by simp at hu, fun hc => by simp at hc, fun k hk => ?_, nofun⟩
      · have hflow := h.flow (by simp [hb])
        rw [hb] at hflow
        exact hflow
      · have := h.dropped k hk
        simp [hb] at this
  | buildPanics hb =>
      refine ⟨fun hn => absurd rfl hn, fun _ => h.unspawned (.inl hb), fun hc => by simp at hc,
        fun k hk => ?_, nofun⟩
      have := h.dropped k hk
      simp [hb] at this
  | @recv k d queue hr hq =>
      refine ⟨fun _ => ?_, fun hu => by simp at hu, fun hc => by simp at hc, fun j hj => ?_, nofun⟩
      · have hflow := h.flow (by simp [hr])
        rw [hr, hq] at hflow
        exact hflow
      · have := h.dropped j hj
        simp [hr] at this
  | closed hr hq htx =>
      refine ⟨fun _ => ?_, fun hu => by simp at hu, fun _ => ⟨htx, hq⟩,
        fun k _ => .inl rfl, nofun⟩
      have hflow := h.flow (by simp [hr])
      rw [hr] at hflow
      exact hflow
  | @spawn k d hp =>
      refine ⟨fun _ => ?_, fun hu => by simp at hu, fun hc => by simp at hc, fun j hj => ?_, nofun⟩
      · obtain ⟨m, hm, habsent, hqueue⟩ := h.flow (by simp [hp])
        rw [hp] at hqueue
        have hlt : m < s.accepted := by
          by_contra hle
          rw [show s.accepted - m = 0 by omega] at hqueue
          simp [Thread.pending] at hqueue
        rw [show s.accepted - m = s.accepted - (m + 1) + 1 by omega, List.range'_succ] at hqueue
        obtain ⟨rfl, hrest⟩ := List.cons.inj hqueue
        refine ⟨k + 1, hlt, fun j => ?_, hrest⟩
        by_cases hj : j = k
        · subst hj; simp
        · simp only [Function.update_of_ne hj, habsent]
          omega
      · by_cases hjk : j = k
        · subst hjk; simp at hj
        · have := h.dropped j (by simpa [hjk] using hj)
          simp [hp] at this
  | @cut k hd hl =>
      refine ⟨fun _ => ?_, fun hu => by simp [hd] at hu, fun _ => h.closing (.inl hd),
        fun _ _ => .inl hd, fun he => by simp [hd] at he⟩
      obtain ⟨m, hm, habsent, hqueue⟩ := h.flow (by simp [hd])
      refine ⟨m, hm, fun j => ?_, hqueue⟩
      by_cases hj : j = k
      · subst hj
        have hna : s.task j ≠ .absent := fun ha => by rw [ha] at hl; exact hl
        simpa using mt (habsent j).mpr hna
      · simpa [hj] using habsent j
  | ended hd hl =>
      refine ⟨fun _ => ?_, fun hu => by simp at hu, fun _ => h.closing (.inl hd),
        fun _ _ => .inr rfl, fun _ => hl⟩
      have hflow := h.flow (by simp [hd])
      rw [hd] at hflow
      exact hflow

/-- A task that is polled stays spawned. -/
theorem Inv.move (h : Inv s) {p : Task} (hl : (s.task k).Live) (hp : p ≠ .absent)
    (hd : p ≠ .dropped) : Inv { s with task := update s.task k p } := by
  have hna : s.task k ≠ .absent := fun ha => by rw [ha] at hl; exact hl
  refine ⟨fun hn => ?_, fun hu => absurd (h.unspawned hu k) hna, h.closing, fun j hj => ?_,
    fun he => absurd hl (h.gone he k)⟩
  · obtain ⟨m, hm, habsent, hqueue⟩ := h.flow hn
    refine ⟨m, hm, fun j => ?_, hqueue⟩
    by_cases hj : j = k
    · subst hj
      have := mt (habsent j).mpr hna
      simpa [hp] using this
    · simpa [hj] using habsent j
  · by_cases hjk : j = k
    · subst hjk
      simp [hd] at hj
    · exact h.dropped j (by simpa [hjk] using hj)

theorem Inv.task (h : Inv s) (hs : TaskStep k s a s') : Inv s' := by
  cases hs with
  | started hp => exact h.move (by rw [hp]; trivial) nofun nofun
  | finished hp => exact h.move (by rw [hp]; trivial) nofun nofun
  | printPanics hl => exact h.move hl nofun nofun

theorem Inv.step (h : Inv s) (hs : Step s a s') : Inv s' := by
  cases hs with
  | owner hs => exact h.owner hs
  | thread hs => exact h.thread hs
  | task k hs => exact h.task hs

theorem inv (h : Run Step init tr s) : Inv s :=
  h.preserves (fun _ _ _ hi hs => hi.step hs) .init

/-- A task that has been spawned was accepted. -/
theorem Inv.lt_accepted (h : Inv s) (hk : s.task k ≠ .absent) : k < s.accepted := by
  have hp : s.thread ≠ .panicked := fun hp => hk (h.unspawned (.inr hp) k)
  obtain ⟨m, hm, habsent, -⟩ := h.flow hp
  have := mt (habsent k).mpr hk
  omega

/-- The task that is being spawned was accepted and is not there yet. -/
theorem Inv.absent_of_spawn (h : Inv s) {d : ℕ} (hp : s.thread = .spawn k d) :
    s.task k = .absent ∧ k < s.accepted := by
  obtain ⟨m, hm, habsent, hqueue⟩ := h.flow (by simp [hp])
  rw [hp] at hqueue
  have hmem : k ∈ List.range' m (s.accepted - m) := by
    rw [← hqueue]
    simp [Thread.pending]
  obtain ⟨hmk, hlt⟩ := List.mem_range'_1.mp hmem
  exact ⟨(habsent k).mpr hmk, by omega⟩

/-- A task that has been accepted and not spawned is behind the head of the channel. -/
theorem Inv.head_le (h : Inv s) (hp : s.thread ≠ .panicked) (hk : k < s.accepted)
    (ha : s.task k = .absent) :
    ∃ j d rest, s.thread.pending ++ s.queue = (j, d) :: rest ∧ j ≤ k := by
  obtain ⟨m, hm, habsent, hqueue⟩ := h.flow hp
  have hmk := (habsent k).mp ha
  rw [show s.accepted - m = s.accepted - m - 1 + 1 by omega, List.range'_succ] at hqueue
  cases hl : s.thread.pending ++ s.queue with
  | nil => rw [hl] at hqueue; cases hqueue
  | cons p rest =>
      rw [hl, List.map_cons] at hqueue
      exact ⟨p.1, p.2, rest, rfl, (List.cons.inj hqueue).1 ▸ hmk⟩

/-! ### While the manager is kept -/

/-- What is left to do for a task. -/
def Task.toGo : Task → ℕ
  | absent => 3
  | start _ => 2
  | sleep _ => 1
  | finished | panicked | dropped => 0

theorem Task.Live.toGo_pos {p : Task} (h : p.Live) : 1 ≤ p.toGo := by
  cases p <;> simp_all [Task.Live, Task.toGo]

/-- The task has come to its end. -/
def Task.Done : Task → Prop
  | finished | panicked => True
  | _ => False

/-- A step for one of the first `n` tasks. -/
def Label.serves (n : ℕ) : Label → Bool
  | .recv k _ | .spawn k _ | .started k _ | .finished k _ | .printPanics k => k < n
  | _ => false

/-- The steps that are left for the first `n` tasks. -/
def Sys.toServe (n : ℕ) (s : Sys) : ℕ :=
  s.queue.countP (·.1 < n) + ∑ k ∈ Finset.range n, (s.task k).toGo

/-- The runtime is built and the manager is there, and the first `n` tasks have been accepted. -/
structure Serving (n : ℕ) (s : Sys) : Prop extends Inv s where
  tx : s.tx = true
  running : s.thread = .recv ∨ ∃ k d, s.thread = .spawn k d
  accepted : n ≤ s.accepted

/-- The manager is not dropped. -/
def Kept (_ : Sys) (a : Label) : Prop := a ≠ .dropManager

variable {n : ℕ}

theorem Serving.step (h : Serving n s) (hs : Guarded Step Kept s a s') : Serving n s' := by
  obtain ⟨hs, hkept⟩ := hs
  have hI := h.toInv.step hs
  cases hs with
  | owner hs =>
      cases hs with
      | sendOk htx hp => exact ⟨hI, h.tx, h.running, h.accepted.trans (Nat.le_succ _)⟩
      | sendErr htx hp => exact h
      | dropManager => exact absurd rfl hkept
  | thread hs =>
      cases hs with
      | build hb | buildPanics hb => have := h.running; simp [hb] at this
      | @recv k d queue hr hq => exact ⟨hI, h.tx, .inr ⟨k, d, rfl⟩, h.accepted⟩
      | closed hr hq htx => rw [h.tx] at htx; cases htx
      | spawn hp => exact ⟨hI, h.tx, .inl rfl, h.accepted⟩
      | cut hd | ended hd => have := h.running; simp [hd] at this
  | task k hs => cases hs <;> exact ⟨hI, h.tx, h.running, h.accepted⟩

/-- A task that moves. -/
theorem toServe_update {p : Task} (hp : p.toGo + 1 ≤ (s.task k).toGo) :
    ∑ j ∈ Finset.range n, (update s.task k p j).toGo + (if k < n then 1 else 0) ≤
      ∑ j ∈ Finset.range n, (s.task j).toGo := by
  by_cases hk : k < n
  · have := sum_update Task.toGo (f := s.task) (Finset.mem_range.mpr hk) p
    rw [if_pos hk]
    omega
  · have hsame : ∀ j ∈ Finset.range n, (update s.task k p j).toGo = (s.task j).toGo :=
      fun j hj => by
        have hjk : j ≠ k := fun hjk => hk (hjk ▸ Finset.mem_range.mp hj)
        rw [Function.update_of_ne hjk]
    rw [Finset.sum_congr rfl hsame, if_neg hk]
    omega

theorem Serving.toServe_step (h : Serving n s) (hs : Guarded Step Kept s a s') :
    s'.toServe n + (if a.serves n then 1 else 0) ≤ s.toServe n := by
  obtain ⟨hs, hkept⟩ := hs
  unfold Sys.toServe
  cases hs with
  | owner hs =>
      cases hs with
      | sendOk htx hp =>
          have hlast : ¬ s.accepted < n := Nat.not_lt.mpr h.accepted
          simp [Label.serves, List.countP_append, hlast]
      | sendErr htx hp => simp [Label.serves]
      | dropManager => exact absurd rfl hkept
  | thread hs =>
      cases hs with
      | build hb | buildPanics hb => have := h.running; simp [hb] at this
      | @recv k d queue hr hq =>
          rw [hq, List.countP_cons]
          simp only [Label.serves, decide_eq_true_eq]
          omega
      | closed hr hq htx => rw [h.tx] at htx; cases htx
      | @spawn k d hp =>
          have hle : (Task.start d).toGo + 1 ≤ (s.task k).toGo := by
            rw [(h.absent_of_spawn hp).1]
            exact le_rfl
          have := toServe_update (n := n) hle
          simp only [Label.serves, decide_eq_true_eq]
          omega
      | cut hd | ended hd => have := h.running; simp [hd] at this
  | task k hs =>
      cases hs with
      | @started d hp =>
          have hle : (Task.sleep d).toGo + 1 ≤ (s.task k).toGo := by rw [hp]; exact le_rfl
          have := toServe_update (n := n) hle
          simp only [Label.serves, decide_eq_true_eq]
          omega
      | finished hp =>
          have hle : Task.finished.toGo + 1 ≤ (s.task k).toGo := by rw [hp]; exact le_rfl
          have := toServe_update (n := n) hle
          simp only [Label.serves, decide_eq_true_eq]
          omega
      | printPanics hl =>
          have hle : Task.panicked.toGo + 1 ≤ (s.task k).toGo := hl.toGo_pos
          have := toServe_update (n := n) hle
          simp only [Label.serves, decide_eq_true_eq]
          omega

/-- The next step for the first `n` tasks. -/
theorem Serving.enabled (h : Serving n s) : (∀ k < n, (s.task k).Done) ∨
    ∃ a s', a.serves n = true ∧ Guarded Step Kept s a s' := by
  by_cases hdone : ∀ k < n, (s.task k).Done
  · exact .inl hdone
  push Not at hdone
  obtain ⟨k, hk, hn⟩ := hdone
  have hserves : decide (k < n) = true := by simpa using hk
  refine .inr ?_
  cases ht : s.task k with
  | finished | panicked => rw [ht] at hn; exact absurd trivial hn
  | dropped =>
      have := h.dropped k ht
      rcases h.running with hr | ⟨j, d, hr⟩ <;> simp [hr] at this
  | start d => exact ⟨.started k d, _, hserves, .task k (.started ht), nofun⟩
  | sleep d => exact ⟨.finished k d, _, hserves, .task k (.finished ht), nofun⟩
  | absent =>
      have hp : s.thread ≠ .panicked := by
        rcases h.running with hr | ⟨j, d, hr⟩ <;> simp [hr]
      obtain ⟨j, d, rest, hl, hj⟩ := h.head_le hp (lt_of_lt_of_le hk h.accepted) ht
      have hlt : decide (j < n) = true := by simpa using lt_of_le_of_lt hj hk
      rcases h.running with hr | ⟨i, e, hr⟩
      · rw [hr] at hl
        exact ⟨.recv j d, _, hlt, .thread (.recv hr hl), nofun⟩
      · rw [hr] at hl
        obtain ⟨rfl, rfl⟩ : i = j ∧ e = d := by
          have := (List.cons.inj hl).1
          simpa using this
        exact ⟨.spawn i e, _, hlt, .thread (.spawn hr), nofun⟩

/-- The first `n` tasks run to their ends while the manager is kept. -/
theorem Serving.finishes (h : Serving n s) : Finishes (Guarded Step Kept) (Label.serves n)
    (fun s' => ∀ k < n, (s'.task k).Done) (s.toServe n) s :=
  .of_measure (Serving n) (Sys.toServe n) h (fun _ _ _ hi hs => hi.step hs)
    (fun _ _ _ hi hs => hi.toServe_step hs) fun _ hi => hi.enabled

/-! ### When the manager is dropped -/

def Thread.toGo : Thread → ℕ
  | build | spawn _ _ => 3
  | recv => 2
  | shutdown => 1
  | ended | panicked => 0

/-- The steps that are left without the manager. -/
def Sys.toGo (s : Sys) : ℕ :=
  s.thread.toGo + 2 * s.queue.length + ∑ k ∈ Finset.range s.accepted, (s.task k).toGo

/-- The thread has nothing left to do. -/
def Thread.Over : Thread → Prop
  | ended | panicked => True
  | _ => False

theorem toGo_update {p : Task} (hk : k < s.accepted) (hp : p.toGo + 1 ≤ (s.task k).toGo) :
    ∑ j ∈ Finset.range s.accepted, (update s.task k p j).toGo + 1 ≤
      ∑ j ∈ Finset.range s.accepted, (s.task j).toGo := by
  have := toServe_update (n := s.accepted) hp
  rwa [if_pos hk] at this

/-- The manager has been dropped. -/
structure Alone (s : Sys) : Prop extends Inv s where
  tx : s.tx = false

theorem Alone.step (h : Alone s) (hs : Step s a s') : Alone s' := by
  refine ⟨h.toInv.step hs, ?_⟩
  cases hs with
  | owner hs =>
      cases hs with
      | sendOk htx | sendErr htx | dropManager htx => simp [h.tx] at htx
  | thread hs => cases hs <;> exact h.tx
  | task k hs => cases hs <;> exact h.tx

theorem Alone.toGo_step (h : Alone s) (hs : Step s a s') : s'.toGo + 1 ≤ s.toGo := by
  unfold Sys.toGo
  cases hs with
  | owner hs =>
      cases hs with
      | sendOk htx | sendErr htx | dropManager htx => simp [h.tx] at htx
  | thread hs =>
      cases hs with
      | build hb => simp only [hb, Thread.toGo]; omega
      | buildPanics hb =>
          simp only [hb, Thread.toGo, List.length_nil]
          omega
      | recv hr hq => simp only [hr, hq, Thread.toGo, List.length_cons]; omega
      | closed hr hq htx => simp only [hr, Thread.toGo]; omega
      | @spawn k d hp =>
          obtain ⟨ha, hk⟩ := h.absent_of_spawn hp
          have hle : (Task.start d).toGo + 1 ≤ (s.task k).toGo := by rw [ha]; exact le_rfl
          have := toGo_update hk hle
          simp only [hp, Thread.toGo]
          omega
      | @cut k hd hl =>
          have hk := h.lt_accepted (k := k) fun ha => by rw [ha] at hl; exact hl
          have hle : Task.dropped.toGo + 1 ≤ (s.task k).toGo := hl.toGo_pos
          have := toGo_update hk hle
          dsimp only
          omega
      | ended hd hl => simp only [hd, Thread.toGo]; omega
  | task k hs =>
      cases hs with
      | @started d hp =>
          have hk := h.lt_accepted (k := k) (by simp [hp])
          have hle : (Task.sleep d).toGo + 1 ≤ (s.task k).toGo := by rw [hp]; exact le_rfl
          have := toGo_update hk hle
          dsimp only
          omega
      | finished hp =>
          have hk := h.lt_accepted (k := k) (by simp [hp])
          have hle : Task.finished.toGo + 1 ≤ (s.task k).toGo := by rw [hp]; exact le_rfl
          have := toGo_update hk hle
          dsimp only
          omega
      | printPanics hl =>
          have hk := h.lt_accepted (k := k) fun ha => by rw [ha] at hl; exact hl
          have hle : Task.panicked.toGo + 1 ≤ (s.task k).toGo := hl.toGo_pos
          have := toGo_update hk hle
          dsimp only
          omega

theorem Alone.enabled (h : Alone s) : s.thread.Over ∨ ∃ a s', Step s a s' := by
  cases ht : s.thread with
  | ended | panicked => exact .inl trivial
  | build => exact .inr ⟨_, _, .thread (.build ht)⟩
  | spawn k d => exact .inr ⟨_, _, .thread (.spawn ht)⟩
  | recv =>
      cases hq : s.queue with
      | nil => exact .inr ⟨_, _, .thread (.closed ht hq h.tx)⟩
      | cons p queue => exact .inr ⟨_, _, .thread (.recv ht hq)⟩
  | shutdown =>
      by_cases hl : ∃ k, (s.task k).Live
      · obtain ⟨k, hl⟩ := hl
        exact .inr ⟨_, _, .thread (.cut ht hl)⟩
      · exact .inr ⟨_, _, .thread (.ended ht (not_exists.mp hl))⟩

/-- The thread comes to its end. -/
theorem Alone.finishes (h : Alone s) :
    Finishes Step (fun _ => true) (·.thread.Over) s.toGo s :=
  .of_measure Alone Sys.toGo h (fun _ _ _ hi hs => hi.step hs)
    (fun _ _ _ hi hs => hi.toGo_step hs) fun _ hi => by
      rcases hi.enabled with hover | ⟨a, s', hs⟩
      · exact .inl hover
      · exact .inr ⟨a, s', rfl, hs⟩

/-! ### Tasks that are lost -/

/-- The task `k` will never go on: it was dropped, or there is no runtime for it. -/
def Lost (k : ℕ) (s : Sys) : Prop :=
  s.task k = .dropped ∨ (s.thread = .panicked ∧ s.task k = .absent)

theorem Lost.step (hI : Inv s) (h : Lost k s) (hs : Step s a s') : Lost k s' := by
  have hkeep : ∀ j p, (s.task j).Live → Lost k { s with task := update s.task j p } := by
    intro j p hl
    have hjk : k ≠ j := fun hjk => by
      subst hjk
      rcases h with h | ⟨-, h⟩ <;> rw [h] at hl <;> exact hl
    have hother : update s.task j p k = s.task k := Function.update_of_ne hjk _ _
    exact h.imp hother.trans fun ⟨hp, ha⟩ => ⟨hp, hother.trans ha⟩
  cases hs with
  | owner hs => cases hs <;> exact h
  | thread hs =>
      rcases h with h | ⟨hp, h⟩
      · have hd := hI.dropped k h
        cases hs with
        | build | buildPanics | recv | closed | ended => exact .inl h
        | spawn hp => simp [hp] at hd
        | cut hd hl => exact hkeep _ _ hl
      · cases hs <;> simp_all
  | task j hs =>
      cases hs with
      | started hp => exact hkeep _ _ (by rw [hp]; trivial)
      | finished hp => exact hkeep _ _ (by rw [hp]; trivial)
      | printPanics hl => exact hkeep _ _ hl

/-- What is lost stays lost. -/
theorem Lost.run (hI : Inv s) (h : Lost k s) (hr : Run Step s tr s') : Lost k s' :=
  (hr.preserves (I := fun s => Inv s ∧ Lost k s)
    (fun _ _ _ hi hs => ⟨hi.1.step hs, hi.2.step hi.1 hs⟩) ⟨hI, h⟩).2

/-- When the runtime is dropped, a task that may still be polled can be dropped with it. -/
theorem canLose_of_shutdown (ht : s.thread = .shutdown) (hl : (s.task k).Live) :
    CanReach Step (Lost k) s :=
  .cons (.thread (.cut ht hl)) <| .here (.inl (Function.update_self ..))

/-- The task may still be polled, or is on its way to the runtime. -/
def Sys.Coming (k : ℕ) (s : Sys) : Prop :=
  (s.task k).Live ∨ k ∈ (s.thread.pending ++ s.queue).map Prod.fst

/-- The next duration is spawned. -/
theorem Sys.Coming.spawn {j d : ℕ} (h : s.Coming k) (ht : s.thread = .spawn j d) :
    Sys.Coming k { s with thread := .recv, task := update s.task j (.start d) } := by
  by_cases hjk : k = j
  · subst hjk
    left
    show (update s.task k _ k).Live
    rw [Function.update_self]
    trivial
  · have hother : update s.task j (.start d) k = s.task k := Function.update_of_ne hjk _ _
    refine h.imp (fun hl => ?_) fun hm => ?_
    · show (update s.task j _ k).Live
      rwa [hother]
    · rw [ht] at hm
      exact (List.mem_cons.mp hm).resolve_left hjk

/-- Without the manager, the thread empties the channel, and the task can be lost then. -/
theorem canLose_of_recv (ht : s.thread = .recv) (htx : s.tx = false) (hk : s.Coming k) :
    CanReach Step (Lost k) s := by
  generalize hq : s.queue = queue
  induction queue generalizing s with
  | nil =>
      have hl : (s.task k).Live := hk.resolve_right (by simp [ht, hq, Thread.pending])
      exact .cons (.thread (.closed ht hq htx)) (canLose_of_shutdown rfl hl)
  | cons p queue ih =>
      have hk₁ : Sys.Coming k { s with thread := .spawn p.1 p.2, queue := queue } := by
        refine hk.imp_right fun hm => ?_
        rw [ht, hq] at hm
        exact hm
      exact .cons (.thread (.recv ht hq)) <| .cons (.thread (.spawn rfl)) <|
        ih rfl htx (hk₁.spawn rfl) rfl

/-- With the runtime built, the manager can be dropped and the task be lost. -/
theorem canLose_of_running (ht : s.thread = .recv ∨ ∃ j d, s.thread = .spawn j d)
    (hk : s.Coming k) : CanReach Step (Lost k) s := by
  have halone : ∀ s : Sys, (s.thread = .recv ∨ ∃ j d, s.thread = .spawn j d) → s.tx = false →
      s.Coming k → CanReach Step (Lost k) s := by
    rintro s (hr | ⟨j, d, hp⟩) htx hk
    · exact canLose_of_recv hr htx hk
    · exact .cons (.thread (.spawn hp)) (canLose_of_recv rfl htx (hk.spawn hp))
  cases htx : s.tx with
  | false => exact halone s ht htx hk
  | true => exact .cons (.owner (.dropManager htx)) (halone _ ht rfl hk)

/-- A task that was accepted and is not spawned is on its way. -/
theorem Inv.coming (h : Inv s) (hk : k < s.accepted) (ha : s.task k = .absent)
    (hp : s.thread ≠ .panicked) : k ∈ (s.thread.pending ++ s.queue).map Prod.fst := by
  obtain ⟨m, hm, habsent, hqueue⟩ := h.flow hp
  rw [hqueue, List.mem_range'_1]
  have := (habsent k).mp ha
  omega

/-- As long as it has not come to its end, a task that was accepted can be lost. -/
theorem Inv.canLose (h : Inv s) (hk : k < s.accepted) (hd : ¬ (s.task k).Done) :
    CanReach Step (Lost k) s := by
  have hcases : (s.task k).Live ∨ s.task k = .absent ∨ s.task k = .dropped := by
    cases ht : s.task k <;> simp_all [Task.Live, Task.Done]
  -- a task that is not there yet is on its way, unless there is no runtime
  have hcoming : s.task k ≠ .dropped → s.thread ≠ .panicked → s.Coming k := fun hn hp =>
    hcases.imp_right fun hc => h.coming hk (hc.resolve_right hn) hp
  by_cases hdrop : s.task k = .dropped
  · exact .here (.inl hdrop)
  cases ht : s.thread with
  | panicked => exact .here (.inr ⟨ht, h.unspawned (.inr ht) k⟩)
  | build =>
      exact .cons (.thread (.buildPanics ht)) <| .here (.inr ⟨rfl, h.unspawned (.inl ht) k⟩)
  | recv => exact canLose_of_running (.inl ht) (hcoming hdrop (by simp [ht]))
  | spawn j d => exact canLose_of_running (.inr ⟨j, d, ht⟩) (hcoming hdrop (by simp [ht]))
  | shutdown =>
      have hl := (hcoming hdrop (by simp [ht])).resolve_right (by
        simp [ht, (h.closing (.inl ht)).2, Thread.pending])
      exact canLose_of_shutdown ht hl
  | ended =>
      have hl := (hcoming hdrop (by simp [ht])).resolve_right (by
        simp [ht, (h.closing (.inr ht)).2, Thread.pending])
      exact absurd hl (h.gone ht k)

end CorustHackathon.BasicTaskManager
