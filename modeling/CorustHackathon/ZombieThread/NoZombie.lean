import CorustHackathon.Termination
import CorustHackathon.ZombieThread.Foo
import Mathlib.Data.List.Count

/-! # The background thread is always stopped

A thread that waits has seen the flag unset, and the flag is set and the notification sent under
one guard.  So a thread that is still in the wait set has the notification before it (`Inv.heard`),
and one that has left the wait set finds the flag set when it looks again. -/

namespace CorustHackathon.ZombieThread

/-! ### The mutex -/

/-- The party holds the mutex. -/
@[simp] def Sys.locked (s : Sys) : Party → Prop
  | .thread => s.thread.locked = true
  | .dropper => s.dropping.locked = true

/-- The mutex is held by the party that is in a locked section. -/
def Sys.Owned (s : Sys) : Prop := s.mutex.Owned s.locked fun _ => False

variable {s s' : Sys} {a : Label}

/-- Only the background thread has moved. -/
theorem locked_thread (h : s'.dropping = s.dropping) :
    ∀ p, p ≠ .thread → (s'.locked p ↔ s.locked p) := by
  intro p hp
  cases p with
  | thread => exact absurd rfl hp
  | dropper => simp [h]

/-- Only the drop has moved. -/
theorem locked_drop (h : s'.thread = s.thread) :
    ∀ p, p ≠ .dropper → (s'.locked p ↔ s.locked p) := by
  intro p hp
  cases p with
  | thread => simp [h]
  | dropper => exact absurd rfl hp

theorem ThreadStep.owned (h : ThreadStep s a s') (ho : s.Owned) : s'.Owned := by
  have hR : ∀ p : Party, p ≠ .thread → (False ↔ False) := fun _ _ => Iff.rfl
  cases h with
  | lock ht hm => exact ho.write hm (locked_thread rfl) hR (by simp [Thread.locked]) id
  | again ht => exact ho.same (locked_thread rfl) hR (by simp [ht, Thread.locked]) Iff.rfl
  | leave ht => exact ho.same (locked_thread rfl) hR (by simp [ht, Thread.locked]) Iff.rfl
  | wait ht =>
      exact ho.unwrite (p := .thread) (by simp [ht, Thread.locked]) (locked_thread rfl) hR
        (by simp [Thread.locked]) id
  | notified ht => exact ho.same (locked_thread rfl) hR (by simp [ht, Thread.locked]) Iff.rfl
  | spurious ht => exact ho.same (locked_thread rfl) hR (by simp [ht, Thread.locked]) Iff.rfl
  | relock ht hm => exact ho.write hm (locked_thread rfl) hR (by simp [Thread.locked]) id
  | body ht => exact ho.same (locked_thread rfl) hR (by simp [ht, Thread.locked]) Iff.rfl
  | exit ht =>
      exact ho.unwrite (p := .thread) (by simp [ht, Thread.locked]) (locked_thread rfl) hR
        (by simp [Thread.locked]) id

theorem DropStep.owned (h : DropStep s a s') (ho : s.Owned) : s'.Owned := by
  have hR : ∀ p : Party, p ≠ .dropper → (False ↔ False) := fun _ _ => Iff.rfl
  cases h with
  | drop hd => exact ho.same (locked_drop rfl) hR (by simp [hd, Dropping.locked]) Iff.rfl
  | dropLock hd hm => exact ho.write hm (locked_drop rfl) hR (by simp [Dropping.locked]) id
  | setStop hd => exact ho.same (locked_drop rfl) hR (by simp [hd, Dropping.locked]) Iff.rfl
  | notifyOne hd => exact ho.same (locked_drop rfl) hR (by simp [hd, Dropping.locked]) Iff.rfl
  | dropReturn hd =>
      exact ho.unwrite (p := .dropper) (by simp [hd, Dropping.locked]) (locked_drop rfl) hR
        (by simp [Dropping.locked]) id

/-! ### The invariant -/

/-- What holds in every reachable state. -/
structure Inv (s : Sys) : Prop where
  owned : s.Owned
  /-- Nobody else waits. -/
  alone : s.cvar.waiting ⊆ {.thread}
  /-- A thread that waits is in the wait set, or its wake-up is set aside. -/
  waits : s.thread = .waiting → .thread ∈ s.cvar.waiting ∨ .thread ∈ s.cvar.notified
  stop : s.stop = s.dropping.hasSet
  /-- A thread that is about to wait has seen the flag, and the flag cannot have been set since. -/
  checked : s.thread = .wait → s.stop = false
  /-- A thread in the wait set has the notification before it. -/
  heard : .thread ∈ s.cvar.waiting → s.stop = false ∨ s.dropping = .notify

namespace Inv

theorem init : Inv init where
  owned := .free_init
    (by intro p; cases p <;> simp [ZombieThread.init, Thread.locked, Dropping.locked])
    fun _ => id
  alone := Finset.empty_subset _
  waits := nofun
  stop := rfl
  checked := nofun
  heard _ := .inl rfl

/-- The thread and the drop do not hold the mutex together. -/
theorem not_both (hI : Inv s) (ht : s.thread.locked = true) : s.dropping.locked ≠ true := by
  intro hd
  have : Party.thread = .dropper := RwLock.Owned.write_unique (W := s.locked) hI.owned ht hd
  cases this

theorem thread (hI : Inv s) (h : ThreadStep s a s') : Inv s' := by
  have ho := h.owned hI.owned
  cases h with
  | lock => exact ⟨ho, hI.alone, nofun, hI.stop, nofun, hI.heard⟩
  | again _ hs => exact ⟨ho, hI.alone, nofun, hI.stop, fun _ => hs, hI.heard⟩
  | leave => exact ⟨ho, hI.alone, nofun, hI.stop, nofun, hI.heard⟩
  | wait ht =>
      refine ⟨ho, ?_, fun _ => .inl (Finset.mem_insert_self _ _), hI.stop, nofun,
        fun _ => .inl (hI.checked ht)⟩
      exact Finset.insert_subset (Finset.mem_singleton_self _) hI.alone
  | notified =>
      exact ⟨ho, (Finset.erase_subset _ _).trans hI.alone, nofun, hI.stop, nofun,
        fun hw => hI.heard (Finset.mem_of_mem_erase hw)⟩
  | spurious =>
      exact ⟨ho, (Finset.erase_subset _ _).trans hI.alone, nofun, hI.stop, nofun,
        fun hw => hI.heard (Finset.mem_of_mem_erase hw)⟩
  | relock => exact ⟨ho, hI.alone, nofun, hI.stop, nofun, hI.heard⟩
  | body => exact ⟨ho, hI.alone, nofun, hI.stop, nofun, hI.heard⟩
  | exit => exact ⟨ho, hI.alone, nofun, hI.stop, nofun, hI.heard⟩

theorem drop (hI : Inv s) (h : DropStep s a s') : Inv s' := by
  have ho := h.owned hI.owned
  cases h with
  | drop hd =>
      have hs : s.stop = false := by rw [hI.stop, hd]; rfl
      exact ⟨ho, hI.alone, hI.waits, hs, hI.checked, fun _ => .inl hs⟩
  | dropLock hd =>
      have hs : s.stop = false := by rw [hI.stop, hd]; rfl
      exact ⟨ho, hI.alone, hI.waits, hs, hI.checked, fun _ => .inl hs⟩
  | setStop hd =>
      refine ⟨ho, hI.alone, hI.waits, rfl, fun (ht : s.thread = .wait) => ?_, fun _ => .inr rfl⟩
      -- the thread would hold the mutex too
      exact absurd (by rw [hd]; rfl) (hI.not_both (by rw [ht]; rfl))
  | @notifyOne c hd hn =>
      have hempty : c.waiting = ∅ := hn.waiting_of_subset hI.alone
      refine ⟨ho, ?_, fun ht => (hn.mem_iff _).mpr (hI.waits ht), ?_, hI.checked, ?_⟩
      · show c.waiting ⊆ _
        rw [hempty]
        exact Finset.empty_subset _
      · show s.stop = _
        rw [hI.stop, hd]
        rfl
      · intro (hw : _ ∈ c.waiting)
        rw [hempty] at hw
        exact absurd hw (Finset.notMem_empty _)
  | dropReturn hd =>
      refine ⟨ho, hI.alone, hI.waits, ?_, hI.checked, fun hw => ?_⟩
      · show s.stop = _
        rw [hI.stop, hd]
        rfl
      · have := hI.heard hw
        rw [hd] at this
        exact .inl (this.resolve_right nofun)

/-- After the drop the wake-up of a thread that waits is set aside. -/
theorem woken (hI : Inv s) (hd : s.dropping = .returned) (ht : s.thread = .waiting) :
    .thread ∈ s.cvar.notified := by
  refine (hI.waits ht).resolve_left fun hw => ?_
  rcases hI.heard hw with hs | hn
  · rw [hI.stop, hd] at hs
    cases hs
  · rw [hd] at hn
    cases hn

theorem step (hI : Inv s) (h : Step s a s') : Inv s' := by
  cases h with
  | thread h => exact hI.thread h
  | drop h => exact hI.drop h

end Inv

/-- Every reachable state meets the invariant. -/
theorem inv_of_run {tr : List Label} (h : Run Step init tr s) : Inv s :=
  h.preserves (fun _ _ _ hI hs => hI.step hs) .init

/-! ### Once the flag is set -/

theorem Step.stop_mono (h : Step s a s') (hs : s.stop = true) : s'.stop = true := by
  cases h with
  | thread h => cases h <;> exact hs
  | drop h =>
      cases h with
      | setStop => rfl
      | _ => exact hs

/-- The flag is set by the drop only. -/
theorem Step.stop_iff (h : Step s a s') : s'.stop = true ↔ s.stop = true ∨ a = .setStop := by
  cases h with
  | thread h => cases h <;> simp
  | drop h => cases h <;> simp

/-- The loop is left where the flag is seen. -/
theorem Step.of_leave (h : Step s .leave s') : s.stop = true := by
  cases h with
  | thread h =>
      cases h with
      | leave _ hs => exact hs
  | drop h => cases h

theorem stop_iff {tr : List Label} (h : Run Step init tr s) : s.stop = true ↔ .setStop ∈ tr :=
  h.invariant (I := fun tr s => s.stop = true ↔ .setStop ∈ tr) (by simp [init])
    fun _ _ _ _ _ ih hs => by
      rw [hs.stop_iff, ih, List.mem_append, List.mem_singleton, eq_comm]

/-- The passes of the loop body before the thread sees the flag, once it is set. -/
def Thread.passes : Thread → ℕ
  | wait | waiting | relock | body => 1
  | lock | check | left | ended => 0

theorem Thread.passes_le_one (t : Thread) : t.passes ≤ 1 := by
  cases t <;> decide

theorem Step.passes_le (h : Step s a s') (hs : s.stop = true) :
    [a].count .body + s'.thread.passes ≤ s.thread.passes := by
  cases h with
  | thread h =>
      cases h with
      | again _ hf => rw [hs] at hf; cases hf
      | lock ht | leave ht | wait ht | notified ht | spurious ht | relock ht | body ht | exit ht =>
          simp [ht, Thread.passes]
  | drop h => cases h <;> exact (Nat.zero_add _).le

theorem passes_le {tr : List Label} (h : Run Step s tr s') (hs : s.stop = true) :
    tr.count .body + s'.thread.passes ≤ s.thread.passes := by
  have := h.invariant
    (I := fun tr s' => s'.stop = true ∧ tr.count .body + s'.thread.passes ≤ s.thread.passes)
    ⟨hs, by simp⟩ fun tr s₁ b s₂ _ ih hb => by
      refine ⟨hb.stop_mono ih.1, ?_⟩
      have := hb.passes_le ih.1
      rw [List.count_append]
      have := ih.2
      omega
  exact this.2

/-- **No zombie thread**: after the drop a thread that waits has its wake-up set aside, the flag
ends the loop after one pass of its body at most, and nothing else ends it. -/
theorem no_zombie {tr : List Label} (h : Run Step init tr s) :
    (s.dropping = .returned → s.thread = .waiting → .thread ∈ s.cvar.notified) ∧
      (∀ tr₁ tr₂, tr = tr₁ ++ .setStop :: tr₂ → tr₂.count .body ≤ 1) ∧
      ∀ tr₁ tr₂, tr = tr₁ ++ .leave :: tr₂ → .setStop ∈ tr₁ := by
  refine ⟨(inv_of_run h).woken, ?_, ?_⟩
  · rintro tr₁ tr₂ rfl
    obtain ⟨m, m', -, hs, h₂⟩ := h.split_at
    calc
      tr₂.count .body ≤ tr₂.count .body + s.thread.passes := Nat.le_add_right _ _
      _ ≤ m'.thread.passes := passes_le h₂ (hs.stop_iff.mpr (.inr rfl))
      _ ≤ 1 := m'.thread.passes_le_one
  · rintro tr₁ tr₂ rfl
    obtain ⟨m, m', h₁, hs, -⟩ := h.split_at
    exact (stop_iff h₁).mp hs.of_leave

/-- The drop notifies the thread while it waits. -/
theorem no_zombie_waiting : ∃ s, Run Step init
    [.lock, .again, .wait, .drop, .dropLock, .setStop, .notifyOne, .dropReturn] s ∧
      s.thread = .waiting ∧ .thread ∈ s.cvar.notified := by
  have h : Run Step init _ _ := (.nil : Run Step init [] init)
    |>.snoc (.thread (.lock rfl rfl)) |>.snoc (.thread (.again rfl rfl))
    |>.snoc (.thread (.wait rfl)) |>.snoc (.drop (.drop rfl)) |>.snoc (.drop (.dropLock rfl rfl))
    |>.snoc (.drop (.setStop rfl))
    |>.snoc (.drop (.notifyOne rfl (.wake (p := .thread) (Finset.mem_insert_self _ _))))
    |>.snoc (.drop (.dropReturn rfl))
  exact ⟨_, h, rfl, (no_zombie h).1 rfl rfl⟩

/-! ### The thread ends -/

/-- The steps of a thread that sees the flag, counted from its end. -/
def Thread.toGo : Thread → ℕ
  | ended => 0
  | left => 1
  | check => 2
  | lock | body => 3
  | relock => 4
  | waiting => 5
  | wait => 6

/-- The steps of the drop, counted from its end. -/
def Dropping.toGo : Dropping → ℕ
  | returned => 0
  | unlock => 1
  | notify => 2
  | setStop => 3
  | lock => 4
  | alive => 5

/-- The steps that are left once the flag is set. -/
def Sys.toGo (s : Sys) : ℕ := s.thread.toGo + s.dropping.toGo

/-- Once the flag is set, every step brings the thread or the drop nearer to its end. -/
theorem Step.toGo_lt (h : Step s a s') (hs : s.stop = true) : s'.toGo < s.toGo := by
  unfold Sys.toGo
  cases h with
  | thread h =>
      cases h with
      | again _ hf => rw [hs] at hf; cases hf
      | lock ht | leave ht | wait ht | notified ht | spurious ht | relock ht | body ht | exit ht =>
          simp [ht, Thread.toGo]
  | drop h =>
      cases h with
      | drop hd | dropLock hd | setStop hd | notifyOne hd | dropReturn hd =>
          simp [hd, Dropping.toGo]

/-- After the drop nobody holds the mutex against the thread, and a thread that waits is woken. -/
theorem Inv.thread_steps (hI : Inv s) (hd : s.dropping = .returned) (ht : s.thread ≠ .ended) :
    ∃ a s', a ≠ .spurious ∧ Step s a s' := by
  have hs : s.stop = true := by rw [hI.stop, hd]; rfl
  have hfree : s.thread.locked = false → s.mutex = .free := fun hl =>
    RwLock.Owned.eq_free (W := s.locked) hI.owned
      (by intro p; cases p <;> simp [hl, hd, Dropping.locked]) fun _ => id
  cases hp : s.thread with
  | lock => exact ⟨.lock, _, nofun, .thread (.lock hp (hfree (by rw [hp]; rfl)))⟩
  | check => exact ⟨.leave, _, nofun, .thread (.leave hp hs)⟩
  | wait => exact ⟨.wait, _, nofun, .thread (.wait hp)⟩
  | waiting => exact ⟨.notified, _, nofun, .thread (.notified hp (hI.woken hd hp))⟩
  | relock => exact ⟨.relock, _, nofun, .thread (.relock hp (hfree (by rw [hp]; rfl)))⟩
  | body => exact ⟨.body, _, nofun, .thread (.body hp)⟩
  | left => exact ⟨.exit, _, nofun, .thread (.exit hp)⟩
  | ended => exact absurd hp ht

/-- Once the flag is set, the drop or the thread can go on without a spurious wake-up, up to the
end of both. -/
theorem Inv.steps (hI : Inv s) (hs : s.stop = true) :
    (s.dropping = .returned ∧ s.thread = .ended) ∨ ∃ a s', a ≠ .spurious ∧ Step s a s' := by
  have hset := hI.stop
  rw [hs] at hset
  cases hd : s.dropping with
  | alive | lock | setStop => rw [hd] at hset; cases hset
  | unlock => exact .inr ⟨.dropReturn, _, by simp, .drop (.dropReturn hd)⟩
  | notify =>
      rcases Finset.eq_empty_or_nonempty s.cvar.waiting with he | ⟨p, hp⟩
      · exact .inr ⟨.notifyOne, _, by simp, .drop (.notifyOne hd (.lost he))⟩
      · exact .inr ⟨.notifyOne, _, by simp, .drop (.notifyOne hd (.wake hp))⟩
  | returned =>
      by_cases ht : s.thread = .ended
      · exact .inl ⟨rfl, ht⟩
      · exact .inr (hI.thread_steps hd ht)

/-- The drop and the thread come to their ends from `s`. -/
structure Ends (s : Sys) : Prop where
  /-- No schedule has more than `toGo` steps, spurious wake-ups included. -/
  bounded : ∀ {tr s'}, Run Step s tr s' → tr.length ≤ s.toGo
  /-- Nor does any need one: a step that is no spurious wake-up is enabled until both have ended. -/
  finishes : Finishes Step (fun a => a ≠ .spurious)
    (fun s => s.dropping = .returned ∧ s.thread = .ended) s.toGo s

/-- **The thread ends**: from any reachable state in which the flag is set, the drop returns and
the thread ends, within `toGo` steps of any schedule and without the help of spurious wake-ups. -/
theorem thread_ends {tr : List Label} (h : Run Step init tr s) (hs : s.stop = true) :
    Ends s := by
  have keep : ∀ s₁ a s₂, Inv s₁ ∧ s₁.stop = true → Step s₁ a s₂ → Inv s₂ ∧ s₂.stop = true := by
    rintro s₁ a s₂ ⟨hI, hs₁⟩ hstep
    exact ⟨hI.step hstep, hstep.stop_mono hs₁⟩
  have dec : ∀ s₁ a s₂, Inv s₁ ∧ s₁.stop = true → Step s₁ a s₂ → s₂.toGo < s₁.toGo :=
    fun s₁ a s₂ hI hstep => hstep.toGo_lt hI.2
  refine ⟨fun hr => ?_, .of_measure (fun s => Inv s ∧ s.stop = true) Sys.toGo
    ⟨inv_of_run h, hs⟩ keep ?_ ?_⟩
  · have := hr.length_add_le (I := fun s => Inv s ∧ s.stop = true) ⟨inv_of_run h, hs⟩ keep dec
    omega
  · intro s₁ a s₂ hI hstep
    have := dec s₁ a s₂ hI hstep
    split_ifs <;> omega
  · rintro s₁ ⟨hI, hs₁⟩
    rcases hI.steps hs₁ with hend | ⟨a, s₂, ha, hstep⟩
    · exact .inl hend
    · exact .inr ⟨a, s₂, by simpa using ha, hstep⟩

/-- The flag is set while the thread waits: seven steps to go. -/
theorem thread_ends_waiting : ∃ s : Sys, s.thread = .waiting ∧ s.cvar.notified = ∅ ∧
    s.toGo = 7 ∧ Ends s := by
  have h : Run Step init _ _ := (.nil : Run Step init [] init)
    |>.snoc (.thread (.lock rfl rfl)) |>.snoc (.thread (.again rfl rfl))
    |>.snoc (.thread (.wait rfl)) |>.snoc (.drop (.drop rfl)) |>.snoc (.drop (.dropLock rfl rfl))
    |>.snoc (.drop (.setStop rfl))
  exact ⟨_, rfl, rfl, rfl, thread_ends h rfl⟩

end CorustHackathon.ZombieThread
