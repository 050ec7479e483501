import Mathlib.Algebra.Order.BigOperators.Group.Finset
import Mathlib.Data.Nat.Cast.Basic
import CorustHackathon.LimitConcurrency.Invariant

/-! # The workers limit the tasks in progress

The comment on `classic` says that there are never more tasks in progress than workers.  So it is,
whatever the tasks are and whatever order the workers are polled in; and every item is started
once, in the order of the items, and finished once, by the time that `classic` returns.  Without a
panic of `println!` it does return, since `send` never fails and no worker is stuck. -/

namespace CorustHackathon.LimitConcurrency

open Function (update)

variable {c : Config} {s s' : Sys} {a : Label} {tr : List Label}

/-! ### The items -/

def Label.received : Label → List ℕ
  | .recv _ j => [j]
  | _ => []

/-- The item whose task is announced as started. -/
def Label.started : Label → List ℕ
  | .start _ j => [j]
  | _ => []

def Label.finished : Label → List ℕ
  | .finish _ j => [j]
  | _ => []

/-- The item that a worker has received and not yet started. -/
def Worker.toStart : Worker → List ℕ
  | start j => [j]
  | _ => []

/-- The task that a worker has started and not yet finished. -/
def Worker.inProgress : Worker → Multiset ℕ
  | await j _ | finish j => {j}
  | _ => 0

def Sys.toStart (s : Sys) : List ℕ :=
  match s.pool with
  | .run (some w) => (s.worker w).toStart
  | _ => []

def Sys.inProgress (c : Config) (s : Sys) : Multiset ℕ :=
  ∑ w ∈ Finset.range c.workers, (s.worker w).inProgress

/-- The main thread has sent the items below `n`. -/
def Main.Sent (c : Config) (n : ℕ) : Main → Prop
  | send i => n = i
  | join | returned => n = c.items
  | panicked => True

/-- Where the items are, as long as no worker has panicked. -/
structure Exact (c : Config) (tr : List Label) (s : Sys) : Prop where
  sent : ∃ n ≤ c.items, s.main.Sent c n ∧ tr.flatMap Label.received ++ s.queue = List.range n
  started : tr.flatMap Label.received = tr.flatMap Label.started ++ s.toStart
  finished : (tr.flatMap Label.started : Multiset ℕ) =
    (tr.flatMap Label.finished : Multiset ℕ) + s.inProgress c

theorem Exact.init : Exact c [] init where
  sent := ⟨0, Nat.zero_le _, rfl, rfl⟩
  started := rfl
  finished := by simp [Sys.inProgress, LimitConcurrency.init, Worker.inProgress]

/-- A step that moves no item. -/
theorem Exact.silent (h : Exact c tr s)
    (ha : a.received = [] ∧ a.started = [] ∧ a.finished = []) (hq : s'.queue = s.queue)
    (hm : ∀ n, s.main.Sent c n → s'.main.Sent c n) (hst : s'.toStart = s.toStart)
    (hin : s'.inProgress c = s.inProgress c) : Exact c (tr ++ [a]) s' := by
  obtain ⟨hr, hs, hf⟩ := ha
  obtain ⟨⟨n, hn, hsent, hqueue⟩, hstarted, hfinished⟩ := h
  refine ⟨⟨n, hn, hm n hsent, ?_⟩, ?_, ?_⟩
  · simpa [hr, hq] using hqueue
  · simpa [hr, hs, hst] using hstarted
  · simpa [hs, hf, hin] using hfinished

theorem Exact.main (h : Exact c tr s) (hs : MainStep c.items s a s') : Exact c (tr ++ [a]) s' := by
  cases hs with
  | @send i hm hi hr =>
      obtain ⟨⟨n, hn, hsent, hqueue⟩, hstarted, hfinished⟩ := h
      rw [hm] at hsent
      obtain rfl : n = i := hsent
      refine ⟨⟨n + 1, hi, rfl, ?_⟩, ?_, ?_⟩
      · rw [List.range_succ, ← hqueue, List.flatMap_append]
        simp [Label.received]
      · rw [List.flatMap_append, hstarted, List.flatMap_append]
        simp [Label.received, Label.started, Sys.toStart]
      · rw [List.flatMap_append, List.flatMap_append]
        simpa [Label.started, Label.finished, Sys.inProgress] using hfinished
  | sendFails hm hi hr => exact h.silent ⟨rfl, rfl, rfl⟩ rfl (fun _ _ => trivial) rfl rfl
  | dropTx hm =>
      exact h.silent ⟨rfl, rfl, rfl⟩ rfl (fun _ hn => by rw [hm] at hn; exact hn) rfl rfl
  | join hm hp =>
      exact h.silent ⟨rfl, rfl, rfl⟩ rfl (fun _ hn => by rw [hm] at hn; exact hn) rfl rfl
  | joinFails hm hp => exact h.silent ⟨rfl, rfl, rfl⟩ rfl (fun _ _ => trivial) rfl rfl

/-- A worker that moves without touching its item leaves the tasks in progress. -/
theorem inProgress_update {w : ℕ} (hw : w < c.workers) {p : Worker}
    (hp : p.inProgress = (s.worker w).inProgress) :
    ∑ v ∈ Finset.range c.workers, (update s.worker w p v).inProgress = s.inProgress c := by
  have h := sum_update Worker.inProgress (f := s.worker) (Finset.mem_range.mpr hw) p
  rw [hp] at h
  exact add_right_cancel h

theorem Exact.pool (hI : Inv c s) (h : Exact c tr s) (hs : PoolStep c.workers s a s') :
    Exact c (tr ++ [a]) s' := by
  have htostart : ∀ w, s.pool ≠ .run (some w) → (s.worker w).toStart = [] := fun w hw => by
    have hb := mt (hI.busy w) hw
    cases hp : s.worker w <;> simp_all [Worker.Busy, Worker.toStart]
  cases hs with
  | @spawn w hp hw =>
      have hu : s.worker w = .unspawned := (hI.spawned (by simp [hp]) w).mpr (by simp [hp])
      exact h.silent ⟨rfl, rfl, rfl⟩ rfl (fun _ => id) (by simp [Sys.toStart, hp])
        (inProgress_update hw (by rw [hu]; rfl))
  | run hp => exact h.silent ⟨rfl, rfl, rfl⟩ rfl (fun _ => id) (by simp [Sys.toStart, hp]) rfl
  | @poll w hp hw =>
      refine h.silent ⟨rfl, rfl, rfl⟩ rfl (fun _ => id) ?_ rfl
      have := htostart w (by simp [hp])
      simpa [Sys.toStart, hp] using this
  | returns hp hw =>
      exact h.silent ⟨rfl, rfl, rfl⟩ rfl (fun _ => id) (by simp [Sys.toStart, hp]) rfl

theorem Exact.worker (hI : Inv c s) (h : Exact c tr s) {w : ℕ} (hw : s.pool = .run (some w))
    (hs : WorkerStep c.pending w s a s') (hp' : s'.pool ≠ .panicked) : Exact c (tr ++ [a]) s' := by
  have hlt := hI.lt_workers hw
  have htostart : s.toStart = (s.worker w).toStart := by simp only [Sys.toStart, hw]
  -- the worker of a step that does not touch its item
  have hsilent : ∀ p : Worker, p.toStart = (s.worker w).toStart →
      (match s.pool with
        | .run (some v) => (update s.worker w p v).toStart
        | _ => []) = s.toStart := fun p hp => by
    rw [htostart, ← hp, hw]
    simp
  cases hs with
  | lock hl hm =>
      exact h.silent ⟨rfl, rfl, rfl⟩ rfl (fun _ => id) (hsilent .recv (by rw [hl]; rfl))
        (inProgress_update hlt (by rw [hl]; rfl))
  | @recv j queue hr hq =>
      obtain ⟨⟨n, hn, hsent, hqueue⟩, hstarted, hfinished⟩ := h
      rw [htostart, hr] at hstarted
      refine ⟨⟨n, hn, hsent, ?_⟩, ?_, ?_⟩
      · rw [List.flatMap_append, ← hqueue, hq]
        simp [Label.received]
      · rw [List.flatMap_append, hstarted, List.flatMap_append]
        simp [Label.received, Label.started, Sys.toStart, hw, Worker.toStart]
      · have hin := inProgress_update (p := .start j) hlt (by rw [hr]; rfl)
        rw [List.flatMap_append, List.flatMap_append]
        simpa [Label.started, Label.finished, Sys.inProgress, hin] using hfinished
  | disconnected hr hq htx =>
      exact h.silent ⟨rfl, rfl, rfl⟩ rfl (fun _ => id) (by rw [htostart, hr]; rfl)
        (inProgress_update hlt (by rw [hr]; rfl))
  | @start j hp =>
      obtain ⟨⟨n, hn, hsent, hqueue⟩, hstarted, hfinished⟩ := h
      rw [htostart, hp] at hstarted
      have hin := sum_update Worker.inProgress (f := s.worker) (Finset.mem_range.mpr hlt)
        (.await j (c.pending j))
      rw [hp] at hin
      change _ + 0 = s.inProgress c + {j} at hin
      rw [add_zero] at hin
      refine ⟨⟨n, hn, hsent, ?_⟩, ?_, ?_⟩
      · rw [List.flatMap_append]
        simpa [Label.received] using hqueue
      · rw [List.flatMap_append, hstarted, List.flatMap_append]
        simp [Label.received, Label.started, Sys.toStart, hw, Worker.toStart]
      · rw [List.flatMap_append, List.flatMap_append, ← Multiset.coe_add, ← Multiset.coe_add,
          hfinished]
        simp only [Sys.inProgress, hin]
        simp [Label.started, Label.finished, add_assoc]
  | @pending j k hp =>
      exact h.silent ⟨rfl, rfl, rfl⟩ rfl (fun _ => id) (by rw [htostart, hp]; rfl)
        (inProgress_update hlt (by rw [hp]; rfl))
  | @ready j hp =>
      exact h.silent ⟨rfl, rfl, rfl⟩ rfl (fun _ => id) (hsilent (.finish j) (by rw [hp]; rfl))
        (inProgress_update hlt (by rw [hp]; rfl))
  | @finish j hp =>
      obtain ⟨⟨n, hn, hsent, hqueue⟩, hstarted, hfinished⟩ := h
      rw [htostart, hp] at hstarted
      have hin := sum_update Worker.inProgress (f := s.worker) (Finset.mem_range.mpr hlt) .lock
      rw [hp] at hin
      change _ + {j} = s.inProgress c + 0 at hin
      rw [add_zero] at hin
      refine ⟨⟨n, hn, hsent, ?_⟩, ?_, ?_⟩
      · rw [List.flatMap_append]
        simpa [Label.received] using hqueue
      · rw [List.flatMap_append, hstarted, List.flatMap_append]
        simp [Label.received, Label.started, Sys.toStart, hw, Worker.toStart]
      · rw [List.flatMap_append, List.flatMap_append, ← Multiset.coe_add, ← Multiset.coe_add,
          hfinished, ← hin]
        simp [Label.started, Label.finished, Sys.inProgress, add_assoc, add_comm]
  | printFails hp => exact absurd rfl hp'

/-! ### Every run -/

/-- What the trace of a run shows, also after a panic. -/
structure Limited (c : Config) (tr : List Label) : Prop where
  /-- The tasks start in the order of the items, each once. -/
  fifo : tr.flatMap Label.started <+: List.range c.items
  /-- A task that finishes has been started, and does so once. -/
  finished : (tr.flatMap Label.finished : Multiset ℕ) ≤ (tr.flatMap Label.started : Multiset ℕ)
  /-- There are never more tasks in progress than workers. -/
  limit : (tr.flatMap Label.started).length ≤ (tr.flatMap Label.finished).length + c.workers

theorem card_inProgress (c : Config) (s : Sys) : (s.inProgress c).card ≤ c.workers := by
  have hle : ∀ w, (s.worker w).inProgress.card ≤ 1 := fun w => by
    cases s.worker w <;> simp [Worker.inProgress]
  unfold Sys.inProgress
  rw [Multiset.card_sum]
  calc ∑ w ∈ Finset.range c.workers, (s.worker w).inProgress.card
      ≤ (Finset.range c.workers).card • 1 := Finset.sum_le_card_nsmul _ _ 1 fun w _ => hle w
    _ = c.workers := by simp

theorem Exact.limited (h : Exact c tr s) : Limited c tr where
  fifo := by
    obtain ⟨n, hn, -, hqueue⟩ := h.sent
    have hstarted : tr.flatMap Label.started <+: tr.flatMap Label.received :=
      h.started ▸ List.prefix_append _ _
    have hreceived : tr.flatMap Label.received <+: List.range n := hqueue ▸ List.prefix_append _ _
    have hrange : List.range n <+: List.range c.items := by
      rw [List.prefix_iff_eq_take, List.take_range, List.length_range, min_eq_left hn]
    exact (hstarted.trans hreceived).trans hrange
  finished := h.finished ▸ Multiset.le_add_right _ _
  limit := by
    have hcard := congrArg Multiset.card h.finished
    rw [Multiset.card_add, Multiset.coe_card, Multiset.coe_card] at hcard
    have := card_inProgress c s
    omega

theorem Limited.silent (h : Limited c tr) (ha : a.started = [] ∧ a.finished = []) :
    Limited c (tr ++ [a]) := by
  obtain ⟨hs, hf⟩ := ha
  have hstarted : (tr ++ [a]).flatMap Label.started = tr.flatMap Label.started := by simp [hs]
  have hfinished : (tr ++ [a]).flatMap Label.finished = tr.flatMap Label.finished := by simp [hf]
  exact ⟨hstarted ▸ h.fifo, hstarted ▸ hfinished ▸ h.finished, hstarted ▸ hfinished ▸ h.limit⟩

/-- A thread that has panicked takes no step. -/
theorem Step.main_of_panicked (hs : Step c s a s') (hp : s.pool = .panicked) :
    MainStep c.items s a s' := by
  cases hs with
  | main hs => exact hs
  | pool hs => cases hs <;> simp_all
  | worker w hw hs => simp [hp] at hw

theorem MainStep.silent {items : ℕ} (hs : MainStep items s a s') :
    a.started = [] ∧ a.finished = [] ∧ s'.pool = s.pool := by
  cases hs <;> exact ⟨rfl, rfl, rfl⟩

theorem history (hc : 0 < c.workers) (h : Run (Step c) init tr s) :
    (s.pool ≠ .panicked → Exact c tr s) ∧ (s.pool = .panicked → ∃ w, .printFails w ∈ tr) ∧
      Limited c tr := by
  refine h.invariant (I := fun tr s => (s.pool ≠ .panicked → Exact c tr s) ∧
    (s.pool = .panicked → ∃ w, .printFails w ∈ tr) ∧ Limited c tr)
    ⟨fun _ => .init, nofun, Exact.init.limited⟩ ?_
  intro tr s a s' hr hi hs
  obtain ⟨hexact, hfails, hlimited⟩ := hi
  by_cases hp : s.pool = .panicked
  · obtain ⟨hst, hfin, hpool⟩ := (hs.main_of_panicked hp).silent
    obtain ⟨w, hw⟩ := hfails hp
    exact ⟨fun hn => absurd (hpool.trans hp) hn, fun _ => ⟨w, List.mem_append_left _ hw⟩,
      hlimited.silent ⟨hst, hfin⟩⟩
  · have hI := inv hc hr
    have hE := hexact hp
    by_cases hp' : s'.pool = .panicked
    · -- the thread panics in this step
      have hfail : ∃ w, a = .printFails w := by
        cases hs with
        | main hs => exact absurd (hs.silent.2.2 ▸ hp') hp
        | pool hs => cases hs <;> cases hp'
        | worker w hw hs =>
            cases hs <;> first | exact ⟨_, rfl⟩ | simp_all
      obtain ⟨w, rfl⟩ := hfail
      exact ⟨fun hn => absurd hp' hn, fun _ => ⟨w, by simp⟩, hlimited.silent ⟨rfl, rfl⟩⟩
    · have hE' : Exact c (tr ++ [a]) s' := by
        cases hs with
        | main hs => exact hE.main hs
        | pool hs => exact hE.pool hI hs
        | worker w hw hs => exact hE.worker hI hw hs hp'
      exact ⟨fun _ => hE', fun h => absurd h hp', hE'.limited⟩

/-- What holds along a run of the workers and the main thread. -/
structure Limits (c : Config) (tr : List Label) (s : Sys) : Prop extends Limited c tr where
  /-- When `classic` returns, every task has been started and has finished. -/
  all : s.main = .returned → tr.flatMap Label.started = List.range c.items ∧
    (tr.flatMap Label.finished).Perm (List.range c.items)
  /-- It panics only if a `println!` does. -/
  panics : s.main = .panicked → ∃ w, .printFails w ∈ tr
  /-- It comes to an end under every schedule. -/
  ends : Finishes (Step c) (fun _ => true) (·.main.Over) (s.toGo c) s

/-- When the thread has returned, no worker has anything left. -/
theorem Inv.over (hc : 0 < c.workers) (h : Inv c s) (hp : s.pool = .returned) :
    s.queue = [] ∧ s.inProgress c = 0 := by
  have hover : ∀ w, s.worker w = .unspawned ∨ s.worker w = .ended := fun w => by
    have ha := h.returned hp w
    have hd := mt (h.dropped w) (by simp [hp])
    cases hw : s.worker w <;> simp_all [Worker.Alive]
  have hw : s.worker 0 = .ended := by
    have hs := h.spawned (by simp [hp]) 0
    rw [hp] at hs
    exact (hover 0).resolve_left fun hu => absurd (hs.mp hu) (by omega)
  refine ⟨(h.drained 0 hw).1, Finset.sum_eq_zero fun w _ => ?_⟩
  rcases hover w with hu | he
  · rw [hu]; rfl
  · rw [he]; rfl

/-- When `classic` has returned, all items have been handled. -/
theorem all_handled (hc : 0 < c.workers) (h : Run (Step c) init tr s) (hm : s.main = .returned) :
    tr.flatMap Label.started = List.range c.items ∧
      (tr.flatMap Label.finished).Perm (List.range c.items) := by
  have hI := inv hc h
  have hp := hI.joined hm
  obtain ⟨hqueue, hprogress⟩ := hI.over hc hp
  obtain ⟨⟨n, hn, hsent, hall⟩, hstarted, hfinished⟩ := (history hc h).1 (by simp [hp])
  rw [hm] at hsent
  obtain rfl : n = c.items := hsent
  have hst : s.toStart = [] := by simp [Sys.toStart, hp]
  rw [hqueue, List.append_nil] at hall
  rw [hst, List.append_nil, hall] at hstarted
  rw [hprogress, add_zero, ← hstarted] at hfinished
  exact ⟨hstarted.symm, (Multiset.coe_eq_coe.mp hfinished).symm⟩

/-- **The workers limit the tasks in progress**, and every item is handled once, under every
schedule. -/
theorem classic_limits (hc : 0 < c.workers) (h : Run (Step c) init tr s) : Limits c tr s := by
  have hI := inv hc h
  obtain ⟨-, hfails, hlimited⟩ := history hc h
  exact { hlimited with
    all := all_handled hc h
    panics := fun hm => hfails (hI.panicked hm)
    ends := finishes hc h }

/-- A run of the source in which the second worker is polled first and takes the first item. -/
def firstTrace : List Label :=
  [.send 0, .spawn 0, .spawn 1, .spawn 2, .run, .poll 1, .lock 1, .recv 1 0, .start 1 0]

theorem firstTrace_run : ∃ s, Run (Step classic) init firstTrace s ∧ s.main = .send 1 :=
  ⟨_, .cons (.main (.send rfl (by decide) rfl)) <|
    .cons (.pool (.spawn rfl (by decide))) <| .cons (.pool (.spawn rfl (by decide))) <|
    .cons (.pool (.spawn rfl (by decide))) <| .cons (.pool (.run rfl)) <|
    .cons (.pool (.poll rfl trivial)) <| .cons (.worker 1 rfl (.lock rfl rfl)) <|
    .cons (.worker 1 rfl (.recv rfl rfl)) <| .single (.worker 1 rfl (.start rfl)), rfl⟩

theorem classic_limits_first : ∃ s, s.main = .send 1 ∧ Limits classic firstTrace s := by
  obtain ⟨s, hr, hm⟩ := firstTrace_run
  exact ⟨s, hm, classic_limits (by decide) hr⟩

end CorustHackathon.LimitConcurrency
