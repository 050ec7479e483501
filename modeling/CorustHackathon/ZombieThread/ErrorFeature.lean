import CorustHackathon.Termination
import CorustHackathon.ZombieThread.Foo

/-! # The background thread of the `error` build

With the feature `error`, `Foo` of `find_zombie_thread_with_loom/src/lib.rs` has no flag: the thread
goes on while `Arc::strong_count(&shared) > 1`, and `Drop` notifies before the fields of `Foo`, and
with them its `Arc`, are dropped.  The count is read without the mutex and can go down after the
only notification, so that the thread may wait for a notification that never comes.

`Unwoken` is the condition on the history for this: the thread has passed its check and nothing has
woken it since.  It is exact (`zombie_iff`), and until `drop` notifies no schedule has decided
whether it will hold (`race`). -/

namespace CorustHackathon.ZombieThread.ErrorFeature

/-- The place of the background thread. -/
inductive Thread where
  /-- `Arc::strong_count(&shared) > 1` -/
  | check
  /-- `state.lock().unwrap()` -/
  | lock
  /-- Locked: `cvar.wait(state)` is called -/
  | wait
  /-- In `cvar.wait`, without the lock -/
  | waiting
  /-- In `cvar.wait`, awake: the lock is taken again -/
  | relock
  /-- Locked: `// do something else` -/
  | body
  /-- The loop is left, the captured `shared` is about to be dropped -/
  | left
  | ended
deriving DecidableEq, Repr

/-- The place of the drop of a `Foo`. -/
inductive Dropping where
  | alive
  /-- `self.shared.cvar.notify_one()` -/
  | notify
  /-- `drop` has returned; the field `shared` is about to be dropped -/
  | dropShared
  | returned
deriving DecidableEq, Repr

/-- The guard of the mutex is held; the other party never locks it. -/
def Thread.locked : Thread → Bool
  | wait | body => true
  | _ => false

/-- The `Arc`s of the thread. -/
def Thread.refs : Thread → ℕ
  | ended => 0
  | _ => 1

/-- The `Arc`s of the `Foo`. -/
def Dropping.refs : Dropping → ℕ
  | returned => 0
  | _ => 1

/-- `Shared` behind its `Arc`, with the thread and the `Foo` that share it. -/
structure Sys where
  mutex : RwLock Party
  cvar : Condvar Party
  strong_count : ℕ
  thread : Thread
  dropping : Dropping

/-- After `Foo::new`. -/
def init : Sys where
  mutex := .free
  cvar := .empty
  strong_count := 2
  thread := .check
  dropping := .alive

inductive Label where
  | again
  | leave
  | lock
  | wait
  | notified
  | spurious
  | relock
  | body
  | exit
  | drop
  /-- `woke`: the wait set was not empty. -/
  | notifyOne (woke : Bool)
  | dropShared
deriving DecidableEq, Repr

/-- The steps of the background thread. -/
inductive ThreadStep (s : Sys) : Label → Sys → Prop
  | again : s.thread = .check → 1 < s.strong_count →
      ThreadStep s .again { s with thread := .lock }
  | leave : s.thread = .check → ¬ 1 < s.strong_count →
      ThreadStep s .leave { s with thread := .left }
  | lock : s.thread = .lock → s.mutex = .free →
      ThreadStep s .lock { s with thread := .wait, mutex := .writing .thread }
  -- the mutex is released and the wait set entered in one step
  | wait : s.thread = .wait →
      ThreadStep s .wait
        { s with thread := .waiting, mutex := .free, cvar := s.cvar.enter .thread }
  | notified : s.thread = .waiting → .thread ∈ s.cvar.notified →
      ThreadStep s .notified { s with thread := .relock, cvar := s.cvar.goOn .thread }
  | spurious : s.thread = .waiting →
      ThreadStep s .spurious { s with thread := .relock, cvar := s.cvar.goOn .thread }
  | relock : s.thread = .relock → s.mutex = .free →
      ThreadStep s .relock { s with thread := .body, mutex := .writing .thread }
  -- `_state` is dropped at the end of the loop body
  | body : s.thread = .body →
      ThreadStep s .body { s with thread := .check, mutex := .free }
  | exit : s.thread = .left →
      ThreadStep s .exit { s with thread := .ended, strong_count := s.strong_count - 1 }

/-- The steps of the drop of a `Foo`. -/
inductive DropStep (s : Sys) : Label → Sys → Prop
  | drop : s.dropping = .alive → DropStep s .drop { s with dropping := .notify }
  | notifyOne {c : Condvar Party} : s.dropping = .notify → s.cvar.NotifyOne c →
      DropStep s (.notifyOne (decide s.cvar.waiting.Nonempty))
        { s with dropping := .dropShared, cvar := c }
  | dropShared : s.dropping = .dropShared →
      DropStep s .dropShared { s with dropping := .returned, strong_count := s.strong_count - 1 }

inductive Step (s : Sys) (a : Label) (s' : Sys) : Prop
  | thread : ThreadStep s a s' → Step s a s'
  | drop : DropStep s a s' → Step s a s'

variable {s s' : Sys} {a : Label} {tr : List Label}

/-! ### The invariant -/

/-- What holds in every reachable state. -/
structure Inv (s : Sys) : Prop where
  mutex : s.thread.locked = false → s.mutex = .free
  count : s.strong_count = s.dropping.refs + s.thread.refs
  /-- Nobody else waits. -/
  alone : s.cvar.waiting ⊆ {.thread}
  waits : s.thread = .waiting ↔ .thread ∈ s.cvar.waiting ∨ .thread ∈ s.cvar.notified
  /-- The loop is left only when the `Foo` is gone. -/
  gone : s.thread = .left ∨ s.thread = .ended → s.dropping = .returned
  early : s.dropping = .alive ∨ s.dropping = .notify → .thread ∉ s.cvar.notified

namespace Inv

theorem init : Inv init where
  mutex _ := rfl
  count := rfl
  alone := Finset.empty_subset _
  waits := by simp [ErrorFeature.init, Condvar.empty]
  gone := by simp [ErrorFeature.init]
  early := by simp [ErrorFeature.init, Condvar.empty]

/-- The count is above one as long as both have their `Arc`. -/
theorem count_iff (hI : Inv s) (ht : s.thread ≠ .ended) :
    1 < s.strong_count ↔ s.dropping ≠ .returned := by
  have hrefs : s.thread.refs = 1 := by
    revert ht
    cases s.thread <;> simp [Thread.refs]
  rw [hI.count, hrefs]
  cases s.dropping <;> simp [Dropping.refs]

theorem thread (hI : Inv s) (h : ThreadStep s a s') : Inv s' := by
  have hcount := hI.count
  have hwaits := hI.waits
  cases h with
  | again ht _ =>
      simp only [ht, reduceCtorEq, false_iff] at hwaits
      exact ⟨fun _ => hI.mutex (by rw [ht]; rfl), by rw [hcount, ht]; rfl, hI.alone,
        by simp [hwaits], by simp, hI.early⟩
  | leave ht hle =>
      simp only [ht, reduceCtorEq, false_iff] at hwaits
      have hret : s.dropping = .returned := by
        by_contra hne
        exact hle ((hI.count_iff (by rw [ht]; exact Thread.noConfusion)).mpr hne)
      exact ⟨fun _ => hI.mutex (by rw [ht]; rfl), by rw [hcount, ht]; rfl, hI.alone,
        by simp [hwaits], fun _ => hret, hI.early⟩
  | lock ht hm =>
      simp only [ht, reduceCtorEq, false_iff] at hwaits
      exact ⟨by simp [Thread.locked], by rw [hcount, ht]; rfl, hI.alone, by simp [hwaits],
        by simp, hI.early⟩
  | wait ht =>
      simp only [ht, reduceCtorEq, false_iff, not_or] at hwaits
      refine ⟨fun _ => rfl, by rw [hcount, ht]; rfl, ?_, by simp [Condvar.enter], by simp, ?_⟩
      · exact Finset.insert_subset (Finset.mem_singleton_self _) hI.alone
      · exact fun _ => hwaits.2
  | notified ht _ | spurious ht =>
      exact ⟨fun _ => hI.mutex (by rw [ht]; rfl), by rw [hcount, ht]; rfl,
        (Finset.erase_subset _ _).trans hI.alone, by simp [Condvar.goOn], by simp,
        by simp [Condvar.goOn]⟩
  | relock ht hm =>
      simp only [ht, reduceCtorEq, false_iff] at hwaits
      exact ⟨by simp [Thread.locked], by rw [hcount, ht]; rfl, hI.alone, by simp [hwaits],
        by simp, hI.early⟩
  | body ht =>
      simp only [ht, reduceCtorEq, false_iff] at hwaits
      exact ⟨fun _ => rfl, by rw [hcount, ht]; rfl, hI.alone, by simp [hwaits], by simp, hI.early⟩
  | exit ht =>
      simp only [ht, reduceCtorEq, false_iff] at hwaits
      have hret := hI.gone (.inl ht)
      refine ⟨fun _ => hI.mutex (by rw [ht]; rfl), ?_, hI.alone, by simp [hwaits], fun _ => hret,
        hI.early⟩
      show s.strong_count - 1 = _
      rw [hcount, ht, hret]
      rfl

theorem drop (hI : Inv s) (h : DropStep s a s') : Inv s' := by
  have hcount := hI.count
  have hover : s.dropping ≠ .returned → ¬ (s.thread = .left ∨ s.thread = .ended) :=
    fun hd ht => hd (hI.gone ht)
  cases h with
  | drop hd =>
      refine ⟨hI.mutex, by rw [hcount, hd]; rfl, hI.alone, hI.waits, fun ht => ?_,
        fun _ => hI.early (.inl hd)⟩
      exact absurd ht (hover (by rw [hd]; exact Dropping.noConfusion))
  | @notifyOne c hd hn =>
      refine ⟨hI.mutex, by rw [hcount, hd]; rfl, ?_, ?_, fun ht => ?_, by simp⟩
      · show c.waiting ⊆ _
        rw [hn.waiting_of_subset hI.alone]
        exact Finset.empty_subset _
      · exact hI.waits.trans (hn.mem_iff _).symm
      · exact absurd ht (hover (by rw [hd]; exact Dropping.noConfusion))
  | dropShared hd =>
      refine ⟨hI.mutex, ?_, hI.alone, hI.waits, fun _ => rfl, by simp⟩
      show s.strong_count - 1 = _
      rw [hcount, hd]
      simp [Dropping.refs]

theorem step (hI : Inv s) (h : Step s a s') : Inv s' := by
  cases h with
  | thread h => exact hI.thread h
  | drop h => exact hI.drop h

/-- Every reachable state meets the invariant. -/
theorem of_run (h : Run Step ErrorFeature.init tr s) : Inv s :=
  h.preserves (fun _ _ _ hI hs => hI.step hs) .init

end Inv

/-! ### The zombie -/

/-- The thread has passed its check and has no wake-up. -/
def Sys.Asleep (s : Sys) : Prop :=
  s.thread = .lock ∨ s.thread = .wait ∨ (s.thread = .waiting ∧ .thread ∉ s.cvar.notified)

/-- The step wakes the thread, or sets a wake-up aside for it. -/
def Label.wakes : Label → Bool
  | notified | spurious | notifyOne true => true
  | _ => false

/-- The thread has passed its check and nothing has woken it since. -/
def Unwoken (tr : List Label) : Prop :=
  ∃ tr₁ tr₂, tr = tr₁ ++ .again :: tr₂ ∧ ∀ a ∈ tr₂, a.wakes = false

theorem unwoken_snoc (tr : List Label) (a : Label) :
    Unwoken (tr ++ [a]) ↔ a = .again ∨ (a.wakes = false ∧ Unwoken tr) := by
  constructor
  · rintro ⟨tr₁, tr₂, he, hq⟩
    rcases snoc_eq_append_cons.mp he with ⟨-, -, rfl⟩ | ⟨tr₃, rfl, rfl⟩
    · exact .inl rfl
    · exact .inr ⟨hq a (by simp), tr₁, tr₃, rfl, fun x hx => hq x (by simp [hx])⟩
  · rintro (rfl | ⟨ha, tr₁, tr₂, rfl, hq⟩)
    · exact ⟨tr, [], rfl, by simp⟩
    · refine ⟨tr₁, tr₂ ++ [a], by simp, fun x hx => ?_⟩
      rcases List.mem_append.mp hx with hx | hx
      · exact hq x hx
      · rwa [List.mem_singleton.mp hx]

/-- What a step does to a sleeper. -/
theorem Step.asleep_iff (hI : Inv s) (h : Step s a s') :
    s'.Asleep ↔ a = .again ∨ (a.wakes = false ∧ s.Asleep) := by
  have hwaits := hI.waits
  cases h with
  | thread h =>
      cases h with
      | wait ht =>
          simp only [ht, reduceCtorEq, false_iff, not_or] at hwaits
          simp [Sys.Asleep, Label.wakes, ht, Condvar.enter, hwaits.2]
      | again ht | leave ht | lock ht | notified ht | spurious ht | relock ht | body ht | exit ht =>
          simp [Sys.Asleep, Label.wakes, ht]
  | drop h =>
      cases h with
      | drop | dropShared => simp [Sys.Asleep, Label.wakes]
      | @notifyOne c hd hn =>
          by_cases hne : s.cvar.waiting.Nonempty
          · -- the thread is the one that is woken
            obtain ⟨p, hp⟩ := hne
            obtain rfl := Finset.mem_singleton.mp (hI.alone hp)
            have ht := hwaits.mpr (.inl hp)
            have hempty : c.waiting = ∅ := hn.waiting_of_subset hI.alone
            have hmem : Party.thread ∈ c.notified := by
              have := (hn.mem_iff .thread).mpr (.inl hp)
              rw [hempty] at this
              exact this.resolve_left (Finset.notMem_empty _)
            have hne : s.cvar.waiting.Nonempty := ⟨_, hp⟩
            simp [Sys.Asleep, Label.wakes, ht, hmem, hne]
          · have hempty : s.cvar.waiting = ∅ := Finset.not_nonempty_iff_eq_empty.mp hne
            cases hn with
            | lost => simp [Sys.Asleep, Label.wakes, hempty]
            | wake hp => rw [hempty] at hp; exact absurd hp (Finset.notMem_empty _)

/-- Who sleeps can be read off the history. -/
theorem asleep_iff (h : Run Step init tr s) : s.Asleep ↔ Unwoken tr := by
  refine h.invariant (I := fun tr s => s.Asleep ↔ Unwoken tr) ?_ fun tr s a s' hr ih hs => ?_
  · simp [Sys.Asleep, init, Unwoken]
  · rw [hs.asleep_iff (.of_run hr), unwoken_snoc, ih]

/-! ### After the drop -/

/-- The steps of a thread that has been woken, counted from its end; one that sleeps has none. -/
def Thread.toGo : Thread → ℕ
  | ended => 0
  | left => 1
  | check => 2
  | body => 3
  | relock => 4
  | waiting => 5
  | lock | wait => 0

/-- A thread that is awake when the `Foo` is gone stays awake and comes closer to its end. -/
theorem Step.toGo_lt (hI : Inv s) (hd : s.dropping = .returned) (ha : ¬ s.Asleep)
    (h : Step s a s') :
    s'.dropping = .returned ∧ ¬ s'.Asleep ∧ s'.thread.toGo < s.thread.toGo := by
  have hsleep := h.asleep_iff hI
  cases h with
  | thread h =>
      have hnot : ¬ s'.Asleep := by
        rw [hsleep]
        rintro (rfl | ⟨-, hs⟩)
        · cases h with
          | again ht hlt =>
              exact (hI.count_iff (by rw [ht]; exact Thread.noConfusion)).mp hlt hd
        · exact ha hs
      refine ⟨?_, hnot, ?_⟩
      · cases h <;> exact hd
      · cases h with
        | again ht => exact absurd (.inl rfl) hnot
        | lock ht => exact absurd (.inl ht) ha
        | wait ht => exact absurd (.inr (.inl ht)) ha
        | leave ht | notified ht | spurious ht | relock ht | body ht | exit ht =>
            simp [ht, Thread.toGo]
  | drop h =>
      cases h with
      | drop he | notifyOne he | dropShared he => rw [hd] at he; cases he

/-- A thread that is awake when the `Foo` is gone can go on, without a spurious wake-up. -/
theorem Inv.thread_steps (hI : Inv s) (hd : s.dropping = .returned) (ha : ¬ s.Asleep)
    (ht : s.thread ≠ .ended) : ∃ a s', a ≠ .spurious ∧ Step s a s' := by
  cases hp : s.thread with
  | check =>
      have hle : ¬ 1 < s.strong_count := fun hlt => (hI.count_iff ht).mp hlt hd
      exact ⟨.leave, _, by simp, .thread (.leave hp hle)⟩
  | lock => exact absurd (.inl hp) ha
  | wait => exact absurd (.inr (.inl hp)) ha
  | waiting =>
      have hn : .thread ∈ s.cvar.notified := by
        by_contra hn
        exact ha (.inr (.inr ⟨hp, hn⟩))
      exact ⟨.notified, _, by simp, .thread (.notified hp hn)⟩
  | relock => exact ⟨.relock, _, by simp, .thread (.relock hp (hI.mutex (by rw [hp]; rfl)))⟩
  | body => exact ⟨.body, _, by simp, .thread (.body hp)⟩
  | left => exact ⟨.exit, _, by simp, .thread (.exit hp)⟩
  | ended => exact absurd hp ht

/-- The steps of a thread up to its last wait. -/
def Thread.toWait : Thread → ℕ
  | lock => 2
  | wait => 1
  | _ => 0

/-- A sleeper that is not woken spuriously comes to its last wait, and no further. -/
theorem asleep_run {tr' : List Label} (hI : Inv s) (hd : s.dropping = .returned) (ha : s.Asleep)
    (h : Run Step s tr' s') (hn : .spurious ∉ tr') :
    s'.Asleep ∧ s'.dropping = .returned ∧ tr'.length + s'.thread.toWait = s.thread.toWait := by
  revert hn
  refine h.invariant (I := fun tr' s' => .spurious ∉ tr' → s'.Asleep ∧ s'.dropping = .returned ∧
    tr'.length + s'.thread.toWait = s.thread.toWait) (fun _ => ⟨ha, hd, by simp⟩) ?_
  intro tr₁ s₁ b s₂ hr ih hb hn
  rw [List.mem_append, not_or, List.mem_singleton] at hn
  obtain ⟨hs₁, hd₁, hlen⟩ := ih hn.1
  have hI₁ : Inv s₁ := hr.preserves (fun _ _ _ hI hs => hI.step hs) hI
  have hsleep := hb.asleep_iff hI₁
  rw [List.length_append, List.length_singleton]
  cases hb with
  | thread hb =>
      rcases hs₁ with ht₁ | ht₁ | ⟨ht₁, hm⟩ <;> cases hb <;>
        simp_all [Label.wakes, Sys.Asleep, Thread.toWait]
  | drop hb =>
      cases hb with
      | drop he | notifyOne he | dropShared he => rw [hd₁] at he; cases he

/-- No run on which a sleeper is not woken spuriously ends it. -/
theorem asleep_forever (h : Run Step init tr s) (hd : s.dropping = .returned) (hu : Unwoken tr)
    {tr' : List Label} (h' : Run Step s tr' s') (hn : .spurious ∉ tr') :
    s'.thread ≠ .ended ∧ tr'.length ≤ 2 := by
  obtain ⟨hs, -, hlen⟩ := asleep_run (.of_run h) hd ((asleep_iff h).mpr hu) h' hn
  constructor
  · rintro ht
    rcases hs with hs | hs | ⟨hs, -⟩ <;> rw [ht] at hs <;> cases hs
  · have hle : s.thread.toWait ≤ 2 := by cases s.thread <;> decide
    omega

/-- **When the thread is a zombie**: after the drop of a `Foo` its thread is sure to end, in a
bounded number of steps of any schedule, if and only if it was woken after it last passed its
check; otherwise only a spurious wake-up of the condition variable can still end it. -/
theorem zombie_iff (h : Run Step init tr s) (hd : s.dropping = .returned) :
    ((∃ n, Finishes Step (fun a => a ≠ .spurious) (fun s => s.thread = .ended) n s) ↔
      ¬ Unwoken tr) ∧
    (Unwoken tr → ∀ tr' s', Run Step s tr' s' → .spurious ∉ tr' →
      s'.thread ≠ .ended ∧ tr'.length ≤ 2) := by
  refine ⟨⟨?_, fun hu => ⟨s.thread.toGo, ?_⟩⟩, fun hu tr' s' h' hn => asleep_forever h hd hu h' hn⟩
  · rintro ⟨n, hF⟩ hu
    obtain ⟨tr', s', hr, hend, hall, -⟩ := hF.canReach
    refine (asleep_forever h hd hu hr fun hm => ?_).1 hend
    have := List.all_eq_true.mp hall _ hm
    simp at this
  · have hawake : ¬ s.Asleep := fun hs => hu ((asleep_iff h).mp hs)
    refine .of_measure (fun s => Inv s ∧ s.dropping = .returned ∧ ¬ s.Asleep)
      (fun s => s.thread.toGo) ⟨.of_run h, hd, hawake⟩ ?_ ?_ ?_
    · rintro s₁ a s₂ ⟨hI, hd₁, hs₁⟩ hs
      have := hs.toGo_lt hI hd₁ hs₁
      exact ⟨hI.step hs, this.1, this.2.1⟩
    · rintro s₁ a s₂ ⟨hI, hd₁, hs₁⟩ hs
      have := (hs.toGo_lt hI hd₁ hs₁).2.2
      split_ifs <;> omega
    · rintro s₁ ⟨hI, hd₁, hs₁⟩
      by_cases he : s₁.thread = .ended
      · exact .inl he
      · obtain ⟨a, s₂, ha, hs⟩ := hI.thread_steps hd₁ hs₁ he
        exact .inr ⟨a, s₂, by simpa using ha, hs⟩

/-- The count goes down between the check and the wait: the notification is lost. -/
theorem zombie_iff_lost : ∃ s, Run Step init [.again, .drop, .notifyOne false, .dropShared] s ∧
    ¬ ∃ n, Finishes Step (fun a => a ≠ .spurious) (fun s => s.thread = .ended) n s := by
  have h : Run Step init [.again, .drop, .notifyOne false, .dropShared] _ :=
    (.nil : Run Step init [] init) |>.snoc (.thread (.again rfl (by decide)))
    |>.snoc (.drop (.drop rfl)) |>.snoc (.drop (.notifyOne rfl (.lost rfl)))
    |>.snoc (.drop (.dropShared rfl))
  refine ⟨_, h, fun hF => (zombie_iff h rfl).1.mp hF ⟨[], _, rfl, by simp [Label.wakes]⟩⟩

/-! ### The race -/

/-- The steps of a run without spurious wake-ups. -/
abbrev Calm : Sys → Label → Sys → Prop := Guarded Step fun _ a => a ≠ .spurious

namespace CanReach

theorem thread {P : Sys → Prop} (h : ThreadStep s a s') (ha : a ≠ .spurious)
    (hc : CanReach Calm P s') : CanReach Calm P s :=
  hc.cons ⟨.thread h, ha⟩

theorem drop {P : Sys → Prop} (h : DropStep s a s') (hc : CanReach Calm P s') :
    CanReach Calm P s :=
  hc.cons ⟨.drop h, by rintro rfl; cases h⟩

end CanReach

/-- The thread waits, `drop` is about to notify it. -/
structure Poised (s : Sys) : Prop where
  thread : s.thread = .waiting
  dropping : s.dropping = .notify
  member : .thread ∈ s.cvar.waiting
  mutex : s.mutex = .free
  count : s.strong_count = 2

/-- Before the notification the thread can always get into the wait set. -/
theorem Inv.poised (hI : Inv s) (hd : s.dropping = .notify) : CanReach Calm Poised s := by
  have hone : 1 < s.strong_count := by
    have : s.thread ≠ .ended := fun he => by rw [hI.gone (.inr he)] at hd; cases hd
    exact (hI.count_iff this).mpr (by rw [hd]; exact Dropping.noConfusion)
  have hcount : s.thread ≠ .ended → s.strong_count = 2 := fun ht => by
    rw [hI.count, hd]
    revert ht
    cases s.thread <;> simp [Dropping.refs, Thread.refs]
  have member : ∀ c : Condvar Party, Party.thread ∈ (c.enter .thread).waiting := fun c =>
    Finset.mem_insert_self _ _
  cases hp : s.thread with
  | left | ended =>
      have := hI.gone (by simp [hp])
      rw [hd] at this
      cases this
  | waiting =>
      have hw := (hI.waits.mp hp).resolve_right (hI.early (.inr hd))
      exact .here ⟨hp, hd, hw, hI.mutex (by rw [hp]; rfl), hcount (by rw [hp]; simp)⟩
  | wait =>
      exact CanReach.thread (.wait hp) (by simp)
        (.here ⟨rfl, hd, member _, rfl, hcount (by rw [hp]; simp)⟩)
  | lock =>
      exact CanReach.thread (.lock hp (hI.mutex (by rw [hp]; rfl))) (by simp)
        (CanReach.thread (.wait rfl) (by simp)
          (.here ⟨rfl, hd, member _, rfl, hcount (by rw [hp]; simp)⟩))
  | check =>
      exact CanReach.thread (.again hp hone) (by simp)
        (CanReach.thread (.lock rfl (hI.mutex (by rw [hp]; rfl))) (by simp)
          (CanReach.thread (.wait rfl) (by simp)
            (.here ⟨rfl, hd, member _, rfl, hcount (by rw [hp]; simp)⟩)))
  | body =>
      exact CanReach.thread (.body hp) (by simp)
        (CanReach.thread (.again rfl hone) (by simp)
          (CanReach.thread (.lock rfl rfl) (by simp)
            (CanReach.thread (.wait rfl) (by simp)
              (.here ⟨rfl, hd, member _, rfl, hcount (by rw [hp]; simp)⟩))))
  | relock =>
      exact CanReach.thread (.relock hp (hI.mutex (by rw [hp]; rfl))) (by simp)
        (CanReach.thread (.body rfl) (by simp)
          (CanReach.thread (.again rfl hone) (by simp)
            (CanReach.thread (.lock rfl rfl) (by simp)
              (CanReach.thread (.wait rfl) (by simp)
                (.here ⟨rfl, hd, member _, rfl, hcount (by rw [hp]; simp)⟩)))))

/-- The thread that is woken sees the `Foo` gone. -/
theorem Poised.ends (h : Poised s) :
    CanReach Calm (fun s => s.dropping = .returned ∧ s.thread = .ended) s := by
  have hcount : ¬ 1 < s.strong_count - 1 := by rw [h.count]; decide
  have hwoken : Party.thread ∈ insert Party.thread s.cvar.notified := Finset.mem_insert_self _ _
  exact CanReach.drop (.notifyOne h.dropping (.wake h.member))
    (CanReach.drop (.dropShared rfl)
      (CanReach.thread (.notified h.thread hwoken) (by simp)
        (CanReach.thread (.relock rfl h.mutex) (by simp)
          (CanReach.thread (.body rfl) (by simp)
            (CanReach.thread (.leave rfl hcount) (by simp)
              (CanReach.thread (.exit rfl) (by simp) (.here ⟨rfl, rfl⟩)))))))

/-- The thread that is woken checks the count before the `Foo` is gone. -/
theorem Poised.sleeps (h : Poised s) :
    CanReach Calm (fun s => s.dropping = .returned ∧ s.Asleep) s := by
  have hcount : 1 < s.strong_count := by rw [h.count]; decide
  have hwoken : Party.thread ∈ insert Party.thread s.cvar.notified := Finset.mem_insert_self _ _
  exact CanReach.drop (.notifyOne h.dropping (.wake h.member))
    (CanReach.thread (.notified h.thread hwoken) (by simp)
      (CanReach.thread (.relock rfl h.mutex) (by simp)
        (CanReach.thread (.body rfl) (by simp)
          (CanReach.thread (.again rfl hcount) (by simp)
            (CanReach.drop (.dropShared rfl) (.here ⟨rfl, .inl rfl⟩))))))

/-- **The race**: whatever has happened before `drop` notifies, the drop of the `Foo` can leave a
thread that has ended, and it can leave one that sleeps for good; no spurious wake-up is needed for
either. -/
theorem race (h : Run Step init tr s) (hd : s.dropping = .alive ∨ s.dropping = .notify) :
    CanReach Calm (fun s => s.dropping = .returned ∧ s.thread = .ended) s ∧
      CanReach Calm (fun s => s.dropping = .returned ∧ s.Asleep) s := by
  have hpoised : CanReach Calm Poised s := by
    have hI := Inv.of_run h
    rcases hd with hd | hd
    · have hs : DropStep s .drop { s with dropping := .notify } := .drop hd
      exact CanReach.drop hs ((hI.drop hs).poised rfl)
    · exact hI.poised hd
  exact ⟨hpoised.trans fun _ hp => hp.ends, hpoised.trans fun _ hp => hp.sleeps⟩

/-- Both outcomes are open for a new `Foo`. -/
theorem race_init : CanReach Calm (fun s => s.dropping = .returned ∧ s.thread = .ended) init ∧
    CanReach Calm (fun s => s.dropping = .returned ∧ s.Asleep) init :=
  race .nil (.inl rfl)

end CorustHackathon.ZombieThread.ErrorFeature
