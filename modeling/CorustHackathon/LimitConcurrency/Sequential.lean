import CorustHackathon.LimitConcurrency.Limit

/-! # One worker does it all

The tasks of `classic` are `ready(())`, and a worker that awaits one of them never gives the pool
back.  So the worker that is polled first gets all the items, one after the other, and the other
workers find the channel closed: what is printed does not depend on the schedule, but for the
number of this worker. -/

namespace CorustHackathon.LimitConcurrency

open Function (update)

variable {c : Config} {s s' : Sys} {a : Label} {tr : List Label}

/-- The lines that are printed. -/
def Label.printed : Label → List Label
  | .start w j => [.start w j]
  | .finish w j => [.finish w j]
  | _ => []

/-- The lines of a worker that handles items one after the other. -/
def handled (w : ℕ) (js : List ℕ) : List Label := js.flatMap fun j => [.start w j, .finish w j]

/-- The item that a worker has received and not finished. -/
def Worker.holds : Worker → List ℕ
  | start j | await j _ | finish j => [j]
  | _ => []

/-- The line of a task in progress. -/
def Worker.opened (w : ℕ) : Worker → List Label
  | await j _ | finish j => [.start w j]
  | _ => []

theorem Worker.opened_of_holds {p : Worker} (h : p.holds = []) (w : ℕ) : p.opened w = [] := by
  cases p <;> simp_all [Worker.holds, Worker.opened]

theorem Worker.opened_of_not_alive {p : Worker} (h : ¬ p.Alive) (w : ℕ) : p.opened w = [] := by
  cases p with
  | await | finish => exact absurd trivial h
  | unspawned | lock | recv | start | ended | dropped => rfl

theorem handled_eq_nil {w : ℕ} {js : List ℕ} (h : handled w js = []) : js = [] := by
  cases js with
  | nil => rfl
  | cons j js => simp [handled] at h

/-- The worker that receives an item. -/
def Label.receiver : Label → List ℕ
  | .recv w _ => [w]
  | _ => []

/-- Only the worker that is polled has an item, and only one has ever received any. -/
structure Seq (c : Config) (tr : List Label) (s : Sys) : Prop where
  ready : ∀ u j k, s.worker u = .await j k → k = 0
  parked : ∀ u, s.pool ≠ .run (some u) → (s.worker u).holds = []
  ended : ∀ v, s.worker v = .ended → ∀ u, (s.worker u).holds = []
  receiver : ∃ w < c.workers, (∀ v ∈ tr.flatMap Label.receiver, v = w) ∧
    tr.flatMap Label.printed = handled w (tr.flatMap Label.finished) ++ (s.worker w).opened w ∧
    (∀ u, u ≠ w → (s.worker u).holds = []) ∧
    (tr.flatMap Label.receiver ≠ [] → s.pool = .run (some w) ∨ s.worker w = .ended)
  fresh : tr.flatMap Label.receiver = [] →
    tr.flatMap Label.printed = [] ∧ ∀ u, (s.worker u).holds = []

theorem Seq.init (hc : 0 < c.workers) : Seq c [] init where
  ready _ _ _ h := by cases h
  parked _ _ := rfl
  ended _ h := by cases h
  receiver := ⟨0, hc, nofun, rfl, fun _ _ => rfl, fun h => absurd rfl h⟩
  fresh _ := ⟨rfl, fun _ => rfl⟩

/-- A step that prints nothing, receives nothing and leaves the tasks in progress. -/
theorem Seq.silent (h : Seq c tr s) (ha : a.receiver = [] ∧ a.printed = [] ∧ a.finished = [])
    (hholds : ∀ u, (s'.worker u).holds = (s.worker u).holds)
    (hopened : ∀ u, (s'.worker u).opened u = (s.worker u).opened u)
    (hparked : ∀ u, s'.pool ≠ .run (some u) → (s.worker u).holds = [])
    (hready : ∀ u j k, s'.worker u = .await j k → k = 0)
    (hended : ∀ v, s'.worker v = .ended → ∀ u, (s.worker u).holds = [])
    (hlog : ∀ w, s.pool = .run (some w) ∨ s.worker w = .ended →
      s'.pool = .run (some w) ∨ s'.worker w = .ended) : Seq c (tr ++ [a]) s' := by
  obtain ⟨w, hw, hreceiver, hprinted, hothers, hwho⟩ := h.receiver
  have hrecv : (tr ++ [a]).flatMap Label.receiver = tr.flatMap Label.receiver := by simp [ha.1]
  have htr : (tr ++ [a]).flatMap Label.printed = tr.flatMap Label.printed := by simp [ha.2.1]
  have hfin : (tr ++ [a]).flatMap Label.finished = tr.flatMap Label.finished := by simp [ha.2.2]
  refine ⟨hready, fun u hu => (hholds u).trans (hparked u hu),
    fun v hv u => (hholds u).trans (hended v hv u), ⟨w, hw, ?_, ?_, ?_, ?_⟩, fun hr => ?_⟩
  · rwa [hrecv]
  · rw [htr, hfin, hopened]
    exact hprinted
  · exact fun u hu => (hholds u).trans (hothers u hu)
  · rw [hrecv]
    exact fun hne => hlog w (hwho hne)
  · rw [hrecv] at hr
    rw [htr]
    exact ⟨(h.fresh hr).1, fun u => (hholds u).trans ((h.fresh hr).2 u)⟩

theorem Seq.main (h : Seq c tr s) (hs : MainStep c.items s a s') : Seq c (tr ++ [a]) s' := by
  cases hs <;>
    exact h.silent ⟨rfl, rfl, rfl⟩ (fun _ => rfl) (fun _ => rfl) h.parked h.ready h.ended
      fun _ => id

theorem Seq.pool (hI : Inv c s) (h : Seq c tr s) (hs : PoolStep c.workers s a s') :
    Seq c (tr ++ [a]) s' := by
  cases hs with
  | @spawn w hp hw =>
      have hu : s.worker w = .unspawned := (hI.spawned (by simp [hp]) w).mpr (by simp [hp])
      refine h.silent ⟨rfl, rfl, rfl⟩ ?_ ?_ (fun u _ => h.parked u (by simp [hp])) ?_
        (fun v hv u => h.parked u (by simp [hp])) ?_
      · intro u
        by_cases hn : u = w
        · subst hn; simp [hu, Worker.holds]
        · simp [hn]
      · intro u
        by_cases hn : u = w
        · subst hn; simp [hu, Worker.opened]
        · simp [hn]
      · intro u j k hk
        by_cases hn : u = w
        · subst hn; simp at hk
        · exact h.ready u j k (by simpa [hn] using hk)
      · rintro v (hv | hv)
        · simp [hp] at hv
        · have hn : v ≠ w := fun hn => by simp [hn, hu] at hv
          exact .inr (by simpa [hn] using hv)
  | run hp | poll hp hw | returns hp hw =>
      exact h.silent ⟨rfl, rfl, rfl⟩ (fun _ => rfl) (fun _ => rfl)
        (fun u _ => h.parked u (by simp [hp])) h.ready h.ended
        fun v hv => .inr (hv.resolve_left (by simp [hp]))

/-- The others hold nothing while a worker is polled. -/
theorem Seq.others (h : Seq c tr s) {v u : ℕ} (hv : s.pool = .run (some v)) (hu : u ≠ v) :
    (s.worker u).holds = [] :=
  h.parked u fun hu' => hu (by rw [hv] at hu'; cases hu'; rfl)

/-- A worker with an item is the one that is polled, and no worker has ended. -/
theorem Seq.not_ended (h : Seq c tr s) {v : ℕ} (hv : (s.worker v).holds ≠ []) :
    ∀ u, s.worker u ≠ .ended := fun u hu => hv (h.ended u hu v)

/-- All that was received and printed is of the worker that is polled, unless one has ended. -/
theorem Seq.mine (h : Seq c tr s) {v : ℕ} (hv : s.pool = .run (some v))
    (hne : ∀ u, s.worker u ≠ .ended) :
    (∀ u ∈ tr.flatMap Label.receiver, u = v) ∧
      tr.flatMap Label.printed =
        handled v (tr.flatMap Label.finished) ++ (s.worker v).opened v := by
  obtain ⟨w, hw, hreceiver, hprinted, hothers, hwho⟩ := h.receiver
  by_cases hr : tr.flatMap Label.receiver = []
  · obtain ⟨hlog, hholds⟩ := h.fresh hr
    rw [hlog] at hprinted
    have hfin := handled_eq_nil (List.append_eq_nil_iff.mp hprinted.symm).1
    rw [hr, hlog, hfin, Worker.opened_of_holds (hholds v)]
    exact ⟨nofun, rfl⟩
  · have hwv := (hwho hr).resolve_right (hne w)
    rw [hv] at hwv
    cases hwv
    exact ⟨hreceiver, hprinted⟩

/-- The worker that is polled moves, without an item or with the one that it has. -/
theorem Seq.move (h : Seq c tr s) {v : ℕ} (hv : s.pool = .run (some v)) {p : Worker}
    (hs' : s'.worker = update s.worker v p)
    (ha : a.receiver = [] ∧ a.printed = [] ∧ a.finished = [])
    (hholds : p.holds = (s.worker v).holds) (hopened : p.opened v = (s.worker v).opened v)
    (hready : ∀ j k, p ≠ .await j k) (hpool : s'.pool = .run (some v) ∨ p = .ended) :
    Seq c (tr ++ [a]) s' := by
  have hself : s'.worker v = p := by simp [hs']
  have hother : ∀ u, u ≠ v → s'.worker u = s.worker u := fun u hu => by simp [hs', hu]
  have hnone : p = .ended → (s.worker v).holds = [] := fun hp => by rw [← hholds, hp]; rfl
  refine h.silent ha (fun u => ?_) (fun u => ?_) (fun u hu => ?_) (fun u j k hk => ?_)
    (fun w hw u => ?_) (fun w hw => ?_)
  · by_cases hn : u = v
    · rw [hn, hself, hholds]
    · rw [hother u hn]
  · by_cases hn : u = v
    · rw [hn, hself, hopened]
    · rw [hother u hn]
  · by_cases hn : u = v
    · subst hn
      exact hnone (hpool.resolve_left hu)
    · exact h.others hv hn
  · by_cases hn : u = v
    · subst hn
      exact absurd (hself ▸ hk) (hready j k)
    · exact h.ready u j k (hother u hn ▸ hk)
  · by_cases hn : u = v
    · subst hn
      by_cases hwu : w = u
      · subst hwu
        exact hnone (hself ▸ hw)
      · exact h.ended w (hother w hwu ▸ hw) u
    · exact h.others hv hn
  · rcases hw with hw | hw
    · rw [hv] at hw
      cases hw
      exact hpool.imp_right fun he => hself.trans he
    · by_cases hn : w = v
      · subst hn
        exact hpool.imp_right fun he => hself.trans he
      · exact .inr ((hother w hn).trans hw)

/-- The worker that is polled receives an item, or goes on with the one it has and prints. -/
theorem Seq.handles (h : Seq c tr s) {v : ℕ} (hlt : v < c.workers) (hv : s.pool = .run (some v))
    {p : Worker} (hs' : s'.worker = update s.worker v p) (hpool : s'.pool = .run (some v))
    (hne : ∀ u, s.worker u ≠ .ended) (hp : p ≠ .ended) (hready : ∀ j k, p = .await j k → k = 0)
    (ha : ∀ u ∈ a.receiver, u = v) (hitem : a.receiver ≠ [] ∨ (s.worker v).holds ≠ [])
    (hprinted : handled v (tr.flatMap Label.finished) ++ (s.worker v).opened v ++ a.printed =
      handled v (tr.flatMap Label.finished ++ a.finished) ++ p.opened v) :
    Seq c (tr ++ [a]) s' := by
  have hself : s'.worker v = p := by simp [hs']
  have hother : ∀ u, u ≠ v → s'.worker u = s.worker u := fun u hu => by simp [hs', hu]
  obtain ⟨hreceiver, hlog⟩ := h.mine hv hne
  refine ⟨fun u j k hk => ?_, fun u hu => ?_, fun u hu => ?_, ⟨v, hlt, ?_, ?_, ?_, ?_⟩,
    fun hr => ?_⟩
  · by_cases hn : u = v
    · subst hn
      exact hready j k (hself ▸ hk)
    · exact h.ready u j k (hother u hn ▸ hk)
  · have hn : u ≠ v := fun hn => hu (by rw [hn]; exact hpool)
    rw [hother u hn]
    exact h.others hv hn
  · by_cases hn : u = v
    · subst hn
      exact absurd (hself ▸ hu) hp
    · exact absurd (hother u hn ▸ hu) (hne u)
  · intro u hu
    rw [List.flatMap_append, List.flatMap_singleton] at hu
    exact (List.mem_append.mp hu).elim (hreceiver u) (ha u)
  · rw [List.flatMap_append, List.flatMap_append, List.flatMap_singleton, List.flatMap_singleton,
      hlog, hself]
    exact hprinted
  · intro u hn
    rw [hother u hn]
    exact h.others hv hn
  · exact fun _ => .inl hpool
  · rw [List.flatMap_append, List.flatMap_singleton, List.append_eq_nil_iff] at hr
    exact absurd ((h.fresh hr.1).2 v) (hitem.resolve_left fun hn => hn hr.2)

theorem Seq.worker (hc : ∀ j, c.pending j = 0) (hI : Inv c s) (h : Seq c tr s) {v : ℕ}
    (hv : s.pool = .run (some v)) (hs : WorkerStep c.pending v s a s')
    (hp' : s'.pool ≠ .panicked) : Seq c (tr ++ [a]) s' := by
  have hlt := hI.lt_workers hv
  cases hs with
  | lock hl hm =>
      exact h.move hv rfl ⟨rfl, rfl, rfl⟩ (by rw [hl]; rfl) (by rw [hl]; rfl) (by simp) (.inl hv)
  | disconnected hr hq htx =>
      exact h.move hv rfl ⟨rfl, rfl, rfl⟩ (by rw [hr]; rfl) (by rw [hr]; rfl) (by simp) (.inr rfl)
  | @pending j k hp => exact absurd (h.ready v j _ hp) (Nat.succ_ne_zero k)
  | @ready j hp =>
      exact h.move hv rfl ⟨rfl, rfl, rfl⟩ (by rw [hp]; rfl) (by rw [hp]; rfl) (by simp) (.inl hv)
  | printFails hp => exact absurd rfl hp'
  | @recv j queue hr hq =>
      -- a worker that has ended has left nothing to receive
      have hne : ∀ u, s.worker u ≠ .ended := fun u hu => by
        have := (hI.drained u hu).1
        rw [hq] at this
        cases this
      refine h.handles hlt hv rfl hv hne (by simp) (by simp) (by simp [Label.receiver])
        (.inl (by simp [Label.receiver])) ?_
      simp [hr, Label.printed, Label.finished, Worker.opened]
  | @start j hp =>
      have hitem : (s.worker v).holds ≠ [] := by simp [hp, Worker.holds]
      refine h.handles hlt hv rfl hv (h.not_ended hitem) (by simp) ?_
        (by simp [Label.receiver]) (.inr hitem) ?_
      · rintro j' k ⟨⟩
        exact hc j
      · simp [hp, Label.printed, Label.finished, Worker.opened]
  | @finish j hp =>
      have hitem : (s.worker v).holds ≠ [] := by simp [hp, Worker.holds]
      refine h.handles hlt hv rfl hv (h.not_ended hitem) (by simp) (by simp)
        (by simp [Label.receiver]) (.inr hitem) ?_
      simp [hp, Label.printed, Label.finished, Worker.opened, handled]

/-! ### Every run -/

/-- The lines tell which tasks have started. -/
theorem started_eq (tr : List Label) :
    tr.flatMap Label.started = (tr.flatMap Label.printed).flatMap Label.started := by
  rw [List.flatMap_assoc]
  refine List.flatMap_congr fun a _ => ?_
  cases a <;> rfl

theorem handled_started (w : ℕ) (js : List ℕ) : (handled w js).flatMap Label.started = js := by
  induction js with
  | nil => rfl
  | cons j js ih => exact congrArg (j :: ·) ih

/-- What has been printed is a beginning of what the worker prints for all the items. -/
theorem handled_prefix {w : ℕ} {js items : List ℕ} {p : Worker}
    (h : (handled w js ++ p.opened w).flatMap Label.started <+: items) :
    handled w js ++ p.opened w <+: handled w items := by
  rw [List.flatMap_append, handled_started] at h
  obtain ⟨rest, rfl⟩ := h
  cases p with
  | await j k | finish j =>
      refine ⟨.finish w j :: handled w rest, ?_⟩
      simp [handled, Worker.opened, Label.started]
  | unspawned | lock | recv | start | ended | dropped =>
      exact ⟨handled w rest, by simp [handled, Worker.opened]⟩

/-- One worker has received all that was received, and the lines are its own, for the first
items. -/
def ByOne (c : Config) (tr : List Label) : Prop :=
  ∃ w < c.workers, (∀ v ∈ tr.flatMap Label.receiver, v = w) ∧
    tr.flatMap Label.printed <+: handled w (List.range c.items)

theorem Seq.byOne (h : Seq c tr s) (hl : Limited c tr) : ByOne c tr := by
  obtain ⟨w, hw, hreceiver, hprinted, -, -⟩ := h.receiver
  have hstarted := hl.fifo
  rw [started_eq, hprinted] at hstarted
  refine ⟨w, hw, hreceiver, ?_⟩
  rw [hprinted]
  exact handled_prefix hstarted

theorem history_seq (hc : 0 < c.workers) (hready : ∀ j, c.pending j = 0)
    (h : Run (Step c) init tr s) :
    (s.pool ≠ .panicked → Seq c tr s) ∧ ByOne c tr := by
  refine h.invariant (I := fun tr s => (s.pool ≠ .panicked → Seq c tr s) ∧ ByOne c tr)
    ⟨fun _ => .init hc, 0, hc, nofun, List.nil_prefix⟩ ?_
  intro tr s a s' hr hi hs
  obtain ⟨hseq, w, hw, hreceiver, hprinted⟩ := hi
  have hI := inv hc hr
  have hlimited := (history hc (hr.snoc hs)).2.2
  by_cases hp' : s'.pool = .panicked
  · have hsilent : a.receiver = [] ∧ a.printed = [] := by
      cases hs with
      | main hs => cases hs <;> exact ⟨rfl, rfl⟩
      | pool hs => cases hs <;> exact ⟨rfl, rfl⟩
      | worker w hw hs => cases hs <;> first | exact ⟨rfl, rfl⟩ | simp_all
    refine ⟨fun hn => absurd hp' hn, w, hw, ?_, ?_⟩
    · rwa [List.flatMap_append, List.flatMap_singleton, hsilent.1, List.append_nil]
    · rwa [List.flatMap_append, List.flatMap_singleton, hsilent.2, List.append_nil]
  · have hp : s.pool ≠ .panicked := fun hp =>
      hp' ((hs.main_of_panicked hp).silent.2.2.trans hp)
    have hS : Seq c (tr ++ [a]) s' := by
      cases hs with
      | main hs => exact (hseq hp).main hs
      | pool hs => exact (hseq hp).pool hI hs
      | worker w hw hs => exact (hseq hp).worker hready hI hw hs hp'
    exact ⟨fun _ => hS, hS.byOne hlimited⟩

/-- **One worker handles all the items**, one after the other: under every schedule it receives all
that is received, and what `classic` prints is the same but for the number of this worker. -/
theorem classic_sequential (hc : 0 < c.workers) (hready : ∀ j, c.pending j = 0)
    (h : Run (Step c) init tr s) :
    ∃ w < c.workers, (∀ v j, .recv v j ∈ tr → v = w) ∧
      tr.flatMap Label.printed <+: handled w (List.range c.items) ∧
      (s.main = .returned → tr.flatMap Label.printed = handled w (List.range c.items)) := by
  obtain ⟨hseq, w, hw, hreceiver, hprinted⟩ := history_seq hc hready h
  have recv : ∀ {w}, (∀ v ∈ tr.flatMap Label.receiver, v = w) → ∀ v j, .recv v j ∈ tr → v = w :=
    fun hall v j hm => hall v (List.mem_flatMap.mpr ⟨_, hm, List.mem_singleton_self v⟩)
  by_cases hm : s.main = .returned
  · have hI := inv hc h
    have hp := hI.joined hm
    obtain ⟨w, hw, hreceiver, hlog, -, -⟩ := (hseq (by simp [hp])).receiver
    have hopened := Worker.opened_of_not_alive (hI.returned hp w) w
    have hstarted := (all_handled hc h hm).1
    rw [hopened, List.append_nil] at hlog
    rw [started_eq, hlog, handled_started] at hstarted
    rw [hlog, hstarted]
    exact ⟨w, hw, recv hreceiver, List.prefix_rfl, fun _ => rfl⟩
  · exact ⟨w, hw, recv hreceiver, hprinted, fun h => absurd h hm⟩

theorem classic_sequential_first : ∃ w < classic.workers,
    (∀ v j, .recv v j ∈ firstTrace → v = w) ∧
      firstTrace.flatMap Label.printed <+: handled w (List.range classic.items) := by
  obtain ⟨s, hr, -⟩ := firstTrace_run
  obtain ⟨w, hw, hreceiver, hprinted, -⟩ := classic_sequential (by decide) (fun _ => rfl) hr
  exact ⟨w, hw, hreceiver, hprinted⟩

end CorustHackathon.LimitConcurrency
