import CorustHackathon.Termination
import CorustHackathon.LimitConcurrency.Classic
import Mathlib.Algebra.BigOperators.Intervals

/-! # The states of the workers and the pool

What holds in every state that `classic` reaches: who holds the lock, which places a worker can be
at while another one is polled, that a worker ends only when nothing is left in the channel, and
that the receiver outlives the sender unless a `println!` panics.  From this, a step is enabled
until the main thread has returned or panicked, and `toGo` bounds the steps that are left. -/

namespace CorustHackathon.LimitConcurrency

open Function (update update_apply)

variable {c : Config} {s s' : Sys} {a : Label} {tr : List Label}

/-! ### The invariant -/

/-- The worker is at a place where it is being polled. -/
def Worker.Busy : Worker → Prop
  | recv | start _ | finish _ => True
  | _ => False

structure Inv (c : Config) (s : Sys) : Prop where
  sending : ∀ i, s.main = .send i → i ≤ c.items ∧ s.tx = true
  sent : (∀ i, s.main ≠ .send i) → s.tx = false
  rx : s.rx = true ↔ s.pool ≠ .returned ∧ s.pool ≠ .panicked
  mutex : s.mutex.Owned (fun w => s.worker w = .recv) fun _ => False
  spawning : ∀ i, s.pool = .spawn i → i ≤ c.workers
  spawned : s.pool ≠ .panicked → ∀ w, s.worker w = .unspawned ↔
    match s.pool with
    | .spawn i => i ≤ w
    | _ => c.workers ≤ w
  busy : ∀ w, (s.worker w).Busy → s.pool = .run (some w)
  polled : ∀ w, s.pool = .run (some w) → (s.worker w).Alive
  /-- A worker ends when there is nothing left. -/
  drained : ∀ w, s.worker w = .ended → s.queue = [] ∧ s.tx = false
  dropped : ∀ w, s.worker w = .dropped → s.pool = .panicked
  returned : s.pool = .returned → ∀ w, ¬ (s.worker w).Alive
  joined : s.main = .returned → s.pool = .returned
  panicked : s.main = .panicked → s.pool = .panicked

theorem Inv.init : Inv c init where
  sending i h := by cases h; exact ⟨Nat.zero_le _, rfl⟩
  sent h := absurd rfl (h 0)
  rx := by simp [LimitConcurrency.init]
  mutex := .free_init (fun _ => nofun) fun _ => id
  spawning i h := by cases h; exact Nat.zero_le _
  spawned _ w := by simp [LimitConcurrency.init]
  busy w h := h.elim
  polled w h := by cases h
  drained w h := by cases h
  dropped w h := by cases h
  returned h := by cases h
  joined h := by cases h
  panicked h := by cases h

/-- While there are workers, none of them has ended before the last item was sent. -/
theorem Inv.rx_of_send (h : Inv c s) (hc : 0 < c.workers) {i : ℕ} (hm : s.main = .send i)
    (hr : s.rx = false) : s.pool = .panicked := by
  by_contra hp
  have hret : s.pool = .returned := by
    by_contra hret
    rw [h.rx.mpr ⟨hret, hp⟩] at hr
    cases hr
  have hw : s.worker 0 = .ended := by
    have hs := h.spawned hp 0
    rw [hret] at hs
    have hu : s.worker 0 ≠ .unspawned := fun hu => absurd (hs.mp hu) (by omega)
    have ha := h.returned hret 0
    have hd := mt (h.dropped 0) hp
    cases hw : s.worker 0 <;> simp_all [Worker.Alive]
  have := (h.drained 0 hw).2
  rw [(h.sending i hm).2] at this
  cases this

theorem Inv.main (hc : 0 < c.workers) (h : Inv c s) (hs : MainStep c.items s a s') : Inv c s' := by
  cases hs with
  | send hm hi hr =>
      exact { h with
        sending := fun j hj => by cases hj; exact ⟨hi, (h.sending _ hm).2⟩
        sent := fun hn => absurd rfl (hn _)
        drained := fun w hw => by
          have := (h.drained w hw).2
          rw [(h.sending _ hm).2] at this
          cases this
        joined := nofun
        panicked := nofun }
  | sendFails hm hi hr =>
      exact { h with
        sending := nofun
        sent := fun _ => rfl
        drained := fun w hw => ⟨(h.drained w hw).1, rfl⟩
        joined := nofun
        panicked := fun _ => h.rx_of_send hc hm hr }
  | dropTx hm =>
      exact { h with
        sending := nofun
        sent := fun _ => rfl
        drained := fun w hw => ⟨(h.drained w hw).1, rfl⟩
        joined := nofun
        panicked := nofun }
  | join hm hp =>
      exact { h with
        sending := nofun
        sent := fun _ => h.sent (by simp [hm])
        joined := fun _ => hp
        panicked := nofun }
  | joinFails hm hp =>
      exact { h with
        sending := nofun
        sent := fun _ => h.sent (by simp [hm])
        joined := nofun
        panicked := fun _ => hp }

/-- While the thread runs, nothing is over. -/
theorem Inv.running (h : Inv c s) (hp : s.pool ≠ .returned) (hp' : s.pool ≠ .panicked) :
    s.main ≠ .returned ∧ s.main ≠ .panicked ∧ ∀ w, s.worker w ≠ .dropped :=
  ⟨mt h.joined hp, mt h.panicked hp', fun w => mt (h.dropped w) hp'⟩

theorem Inv.pool (h : Inv c s) (hs : PoolStep c.workers s a s') : Inv c s' := by
  cases hs with
  | @spawn w hp hw =>
      obtain ⟨hret, hpan, hdrop⟩ := h.running (by simp [hp]) (by simp [hp])
      have hu : s.worker w = .unspawned := (h.spawned (by simp [hp]) w).mpr (by simp [hp])
      have hother : ∀ q, q ≠ w → update s.worker w .lock q = s.worker q := fun q hq => by simp [hq]
      exact { h with
        rx := by simpa [hp] using h.rx
        mutex := h.mutex.same (p := w) (fun q hq => by dsimp only; rw [hother q hq])
          (fun _ _ => Iff.rfl) (by simp [hu]) Iff.rfl
        spawning := fun i hi => by cases hi; exact hw
        spawned := fun _ q => by
          have := h.spawned (by simp [hp]) q
          rw [hp] at this
          dsimp only at this ⊢
          by_cases hq : q = w
          · subst hq; simp
          · rw [hother q hq, this]
            omega
        busy := fun q hb => by
          by_cases hq : q = w
          · subst hq; simp [Worker.Busy] at hb
          · have := h.busy q (hother q hq ▸ hb)
            simp [hp] at this
        polled := nofun
        drained := fun q hd => by
          by_cases hq : q = w
          · subst hq; simp at hd
          · exact h.drained q (hother q hq ▸ hd)
        dropped := fun q hd => by
          by_cases hq : q = w
          · subst hq; simp at hd
          · exact absurd (hother q hq ▸ hd) (hdrop q)
        returned := nofun
        joined := fun hm => absurd hm hret
        panicked := fun hm => absurd hm hpan }
  | run hp =>
      obtain ⟨hret, hpan, hdrop⟩ := h.running (by simp [hp]) (by simp [hp])
      exact { h with
        rx := by simpa [hp] using h.rx
        spawning := nofun
        spawned := fun _ q => by simpa [hp] using h.spawned (by simp [hp]) q
        busy := fun q hb => by have := h.busy q hb; simp [hp] at this
        polled := nofun
        dropped := fun q hd => absurd hd (hdrop q)
        returned := nofun
        joined := fun hm => absurd hm hret
        panicked := fun hm => absurd hm hpan }
  | @poll w hp hw =>
      obtain ⟨hret, hpan, hdrop⟩ := h.running (by simp [hp]) (by simp [hp])
      exact { h with
        rx := by simpa [hp] using h.rx
        spawning := nofun
        spawned := fun _ q => by simpa [hp] using h.spawned (by simp [hp]) q
        busy := fun q hb => by have := h.busy q hb; simp [hp] at this
        polled := fun q hq => by cases hq; exact hw
        dropped := fun q hd => absurd hd (hdrop q)
        returned := nofun
        joined := fun hm => absurd hm hret
        panicked := fun hm => absurd hm hpan }
  | returns hp hw =>
      obtain ⟨hret, hpan, hdrop⟩ := h.running (by simp [hp]) (by simp [hp])
      exact { h with
        rx := by simp
        spawning := nofun
        spawned := fun _ q => by simpa [hp] using h.spawned (by simp [hp]) q
        busy := fun q hb => by have := h.busy q hb; simp [hp] at this
        polled := nofun
        dropped := fun q hd => absurd hd (hdrop q)
        returned := fun _ => hw
        joined := fun _ => rfl
        panicked := fun hm => absurd hm hpan }

/-- The worker that is polled goes to another place, and goes on or gives the pool back. -/
theorem Inv.move (h : Inv c s) {w : ℕ} (hw : s.pool = .run (some w)) {p : Worker} {o : Option ℕ}
    {l : RwLock ℕ} {queue : List ℕ} (ho : o = some w ∧ p.Alive ∨ o = none ∧ ¬ p.Busy)
    (hl : l.Owned (fun v => update s.worker w p v = .recv) fun _ => False)
    (hqueue : s.queue = [] → queue = []) (hu : p ≠ .unspawned) (hd : p ≠ .dropped)
    (hended : p = .ended → queue = [] ∧ s.tx = false) :
    Inv c { s with
      pool := .run o
      worker := update s.worker w p
      mutex := l
      queue := queue } := by
  obtain ⟨hret, hpan, hdrop⟩ := h.running (by simp [hw]) (by simp [hw])
  have hother : ∀ q, q ≠ w → update s.worker w p q = s.worker q := fun q hq => by simp [hq]
  have hmoved : update s.worker w p w = p := by simp
  generalize update s.worker w p = worker at hl hother hmoved ⊢
  exact { h with
    rx := by simpa [hw] using h.rx
    mutex := hl
    spawning := nofun
    spawned := fun _ q => by
      have hs := h.spawned (by simp [hw]) q
      rw [hw] at hs
      by_cases hq : q = w
      · subst hq
        have ha := h.polled q hw
        have hne : s.worker q ≠ .unspawned := fun he => by rw [he] at ha; exact ha
        subst hmoved
        exact iff_of_false hu (mt hs.mpr hne)
      · rw [← hother q hq] at hs
        exact hs
    busy := fun q hb => by
      by_cases hq : q = w
      · subst hq hmoved
        rcases ho with ⟨rfl, -⟩ | ⟨-, hn⟩
        · rfl
        · exact absurd hb hn
      · have := h.busy q (hother q hq ▸ hb)
        rw [hw] at this
        cases this
        exact absurd rfl hq
    polled := fun q hq => by
      cases hq
      subst hmoved
      rcases ho with ⟨ho, ha⟩ | ⟨ho, -⟩ <;> cases ho
      exact ha
    drained := fun q he => by
      by_cases hq : q = w
      · subst hq hmoved; exact hended he
      · obtain ⟨hnil, htx⟩ := h.drained q (hother q hq ▸ he)
        exact ⟨hqueue hnil, htx⟩
    dropped := fun q he => by
      by_cases hq : q = w
      · subst hq hmoved; exact absurd he hd
      · exact absurd (hother q hq ▸ he) (hdrop q)
    returned := nofun
    joined := fun hm => absurd hm hret
    panicked := fun hm => absurd hm hpan }

theorem Inv.worker (h : Inv c s) {w : ℕ} (hw : s.pool = .run (some w))
    (hs : WorkerStep c.pending w s a s') : Inv c s' := by
  obtain ⟨main, queue, tx, rx, mutex, pool, worker⟩ := s
  obtain rfl : pool = .run (some w) := hw
  have hother : ∀ (p : Worker) q, q ≠ w → (update worker w p q = .recv ↔ worker q = .recv) :=
    fun p q hq => by simp [hq]
  -- the lock stays with the place `recv`
  have hsame : ∀ p : Worker, (p = .recv ↔ worker w = .recv) →
      mutex.Owned (fun v => update worker w p v = .recv) fun _ => False := fun p hp =>
    h.mutex.same (p := w) (hother p) (fun _ _ => Iff.rfl) (by simpa using hp) Iff.rfl
  have hunlock : ∀ p : Worker, p ≠ .recv → worker w = .recv →
      RwLock.free.Owned (fun v => update worker w p v = .recv) fun _ => False := fun p hp hr =>
    h.mutex.unwrite (p := w) hr (hother p) (fun _ _ => Iff.rfl) (by simpa using hp) id
  cases hs with
  | lock hl hm =>
      exact h.move rfl (.inl ⟨rfl, trivial⟩)
        (h.mutex.write (p := w) hm (hother _) (fun _ _ => Iff.rfl) (by simp) id) id nofun nofun
        nofun
  | recv hr hq =>
      obtain rfl : queue = _ := hq
      exact h.move rfl (.inl ⟨rfl, trivial⟩) (hunlock _ nofun hr) nofun nofun nofun nofun
  | disconnected hr hq htx =>
      exact h.move rfl (.inr ⟨rfl, id⟩) (hunlock _ nofun hr) id nofun nofun fun _ => ⟨hq, htx⟩
  | start hp =>
      exact h.move rfl (.inl ⟨rfl, trivial⟩) (hsame _ (by simp_all)) id nofun nofun nofun
  | pending hp =>
      exact h.move rfl (.inr ⟨rfl, id⟩) (hsame _ (by simp_all)) id nofun nofun nofun
  | ready hp =>
      exact h.move rfl (.inl ⟨rfl, trivial⟩) (hsame _ (by simp_all)) id nofun nofun nofun
  | finish hp =>
      exact h.move rfl (.inl ⟨rfl, trivial⟩) (hsame _ (by simp_all)) id nofun nofun nofun
  | printFails hp =>
      obtain ⟨hret, hpan, hdrop⟩ := h.running nofun nofun
      have hfree : mutex = .free := h.mutex.eq_free (fun q hq => by
        have hb := h.busy q (by dsimp only at hq ⊢; rw [hq]; trivial)
        cases hb
        rcases hp with hp | hp <;> simp_all) fun _ => id
      exact { h with
        rx := by simp
        mutex := hfree ▸ .free_init (fun _ => nofun) fun _ => id
        spawning := nofun
        spawned := fun hn => absurd rfl hn
        busy := fun q hb => hb.elim
        polled := nofun
        drained := nofun
        dropped := fun _ _ => rfl
        returned := nofun
        joined := fun hm => absurd hm hret
        panicked := fun hm => absurd hm hpan }

theorem Inv.step (hc : 0 < c.workers) (h : Inv c s) (hs : Step c s a s') : Inv c s' := by
  cases hs with
  | main hs => exact h.main hc hs
  | pool hs => exact h.pool hs
  | worker w hw hs => exact h.worker hw hs

theorem inv (hc : 0 < c.workers) (h : Run (Step c) init tr s) : Inv c s :=
  h.preserves (fun _ _ _ hi hs => hi.step hc hs) .init

/-! ### The end -/

/-- `classic` has returned or panicked. -/
def Main.Over : Main → Prop
  | returned | panicked => True
  | _ => False

/-- How many steps a worker may still take, and the pool for it, before it looks for an item. -/
def Worker.toGo (pending : ℕ → ℕ) : Worker → ℕ
  | unspawned => 4
  | lock => 3
  | recv => 2
  | start j => 2 * pending j + 6
  | await _ k => 2 * k + 5
  | finish _ => 4
  | ended | dropped => 0

def Pool.toGo : Pool → ℕ
  | spawn _ => 3
  | run none => 2
  | run (some _) => 1
  | returned | panicked => 0

/-- The steps that an item makes for a worker. -/
def Config.work (c : Config) (j : ℕ) : ℕ := 2 * c.pending j + 5

def Main.toGo (c : Config) : Main → ℕ
  | send i => 2 + ∑ j ∈ Finset.Ico i c.items, (1 + c.work j)
  | join => 1
  | returned | panicked => 0

/-- A bound on the steps that are left. -/
def Sys.toGo (c : Config) (s : Sys) : ℕ :=
  s.main.toGo c + (s.queue.map c.work).sum + s.pool.toGo +
    ∑ w ∈ Finset.range c.workers, (s.worker w).toGo c.pending

theorem Inv.lt_workers (h : Inv c s) {w : ℕ} (hw : s.pool = .run (some w)) : w < c.workers := by
  by_contra hle
  have hs := h.spawned (by simp [hw]) w
  rw [hw] at hs
  have ha := h.polled w hw
  rw [hs.mpr (by simpa using hle)] at ha
  exact ha

theorem Inv.toGo_step (h : Inv c s) (hs : Step c s a s') : s'.toGo c + 1 ≤ s.toGo c := by
  unfold Sys.toGo
  cases hs with
  | main hs =>
      cases hs with
      | send hm hi hr =>
          simp only [hm, Main.toGo, List.map_append, List.sum_append, List.map_singleton,
            List.sum_singleton]
          rw [Finset.sum_eq_sum_Ico_succ_bot hi]
          omega
      | sendFails hm hi hr => simp only [hm, Main.toGo]; omega
      | dropTx hm => simp only [hm, Main.toGo]; omega
      | join hm hp => simp only [hm, Main.toGo]; omega
      | joinFails hm hp => simp only [hm, Main.toGo]; omega
  | pool hs =>
      cases hs with
      | @spawn w hp hw =>
          have hu : s.worker w = .unspawned := (h.spawned (by simp [hp]) w).mpr (by simp [hp])
          have hsum := sum_update (Worker.toGo c.pending) (f := s.worker)
            (Finset.mem_range.mpr hw) .lock
          rw [hu] at hsum
          change _ + 4 = _ + 3 at hsum
          simp only [hp, Pool.toGo]
          omega
      | run hp => simp only [hp, Pool.toGo]; omega
      | poll hp hw => simp only [hp, Pool.toGo]; omega
      | returns hp hw => simp only [hp, Pool.toGo]; omega
  | worker w hw hs =>
      have hsum := sum_update (Worker.toGo c.pending) (f := s.worker)
        (Finset.mem_range.mpr (h.lt_workers hw))
      cases hs with
      | lock hl hm =>
          have := hsum .recv
          rw [hl] at this
          change _ + 3 = _ + 2 at this
          dsimp only
          omega
      | @recv j queue hr hq =>
          have := hsum (.start j)
          rw [hr] at this
          change _ + 2 = _ + (2 * c.pending j + 6) at this
          simp only [hq, List.map_cons, List.sum_cons, Config.work]
          omega
      | disconnected hr hq htx =>
          have := hsum .ended
          rw [hr] at this
          change _ + 2 = _ + 0 at this
          simp only [hw, Pool.toGo]
          omega
      | @start j hp =>
          have := hsum (.await j (c.pending j))
          rw [hp] at this
          change _ + (2 * c.pending j + 6) = _ + (2 * c.pending j + 5) at this
          dsimp only
          omega
      | @pending j k hp =>
          have := hsum (.await j k)
          rw [hp] at this
          change _ + (2 * (k + 1) + 5) = _ + (2 * k + 5) at this
          simp only [hw, Pool.toGo]
          omega
      | @ready j hp =>
          have := hsum (.finish j)
          rw [hp] at this
          change _ + 5 = _ + 4 at this
          dsimp only
          omega
      | finish hp =>
          have := hsum .lock
          rw [hp] at this
          change _ + 4 = _ + 3 at this
          dsimp only
          omega
      | printFails hp =>
          simp only [hw, Pool.toGo, Worker.toGo, Finset.sum_const_zero]
          omega

/-- The worker that is polled can step, unless it waits for an item. -/
theorem Inv.worker_enabled (h : Inv c s) {w : ℕ} (hw : s.pool = .run (some w))
    (hm : s.main = .join) : ∃ a s', Step c s a s' := by
  have ha := h.polled w hw
  cases hp : s.worker w with
  | unspawned | ended | dropped => rw [hp] at ha; exact ha.elim
  | lock =>
      have hfree : s.mutex = .free := h.mutex.eq_free (fun q hq => by
        have hb := h.busy q (by rw [hq]; trivial)
        rw [hw] at hb
        cases hb
        rw [hp] at hq
        cases hq) fun _ => id
      exact ⟨_, _, .worker w hw (.lock hp hfree)⟩
  | recv =>
      cases hq : s.queue with
      | nil =>
          have htx : s.tx = false := h.sent (by simp [hm])
          exact ⟨_, _, .worker w hw (.disconnected hp hq htx)⟩
      | cons j queue => exact ⟨_, _, .worker w hw (.recv hp hq)⟩
  | start j => exact ⟨_, _, .worker w hw (.start hp)⟩
  | await j k =>
      cases k with
      | zero => exact ⟨_, _, .worker w hw (.ready hp)⟩
      | succ k => exact ⟨_, _, .worker w hw (.pending hp)⟩
  | finish j => exact ⟨_, _, .worker w hw (.finish hp)⟩

/-- There is always a step until `classic` is over. -/
theorem Inv.enabled (h : Inv c s) (hm : ¬ s.main.Over) : ∃ a s', Step c s a s' := by
  cases hmain : s.main with
  | returned | panicked => rw [hmain] at hm; exact absurd trivial hm
  | send i =>
      obtain ⟨hi, -⟩ := h.sending i hmain
      rcases hi.lt_or_eq with hi | rfl
      · cases hr : s.rx with
        | true => exact ⟨_, _, .main (.send hmain hi hr)⟩
        | false => exact ⟨_, _, .main (.sendFails hmain hi hr)⟩
      · exact ⟨_, _, .main (.dropTx hmain)⟩
  | join =>
      cases hp : s.pool with
      | spawn w =>
          rcases (h.spawning w hp).lt_or_eq with hw | rfl
          · exact ⟨_, _, .pool (.spawn hp hw)⟩
          · exact ⟨_, _, .pool (.run hp)⟩
      | run o =>
          cases o with
          | none =>
              by_cases hw : ∃ w, (s.worker w).Alive
              · obtain ⟨w, hw⟩ := hw
                exact ⟨_, _, .pool (.poll hp hw)⟩
              · exact ⟨_, _, .pool (.returns hp (not_exists.mp hw))⟩
          | some w => exact h.worker_enabled hp hmain
      | returned => exact ⟨_, _, .main (.join hmain hp)⟩
      | panicked => exact ⟨_, _, .main (.joinFails hmain hp)⟩

theorem finishes (hc : 0 < c.workers) (h : Run (Step c) init tr s) :
    Finishes (Step c) (fun _ => true) (·.main.Over) (s.toGo c) s :=
  .of_measure (Inv c) (Sys.toGo c) (inv hc h) (fun _ _ _ hi hs => hi.step hc hs)
    (fun _ _ _ hi hs => hi.toGo_step hs) fun s₁ hi => by
      by_cases hm : s₁.main.Over
      · exact .inl hm
      · obtain ⟨a, s₂, hs⟩ := hi.enabled hm
        exact .inr ⟨a, s₂, rfl, hs⟩

end CorustHackathon.LimitConcurrency
