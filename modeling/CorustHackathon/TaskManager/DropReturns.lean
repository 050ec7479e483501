import Mathlib.Algebra.BigOperators.Group.List.Basic
import Mathlib.Algebra.Order.BigOperators.Group.List
import CorustHackathon.TaskManager.Prompt
import CorustHackathon.TaskManager.WorkConserving

/-! # `Drop` returns

`Drop` joins the background thread, which joins every future.  Nothing in this is bounded by a
time-out: that the join ends rests on the cancel pass, which leaves every future that is still in
its `select!` with a cancelled token, so that the next pass that polls the token is its last, and on
the tasks, whose `on_err` and `on_cancel` have to return.

`Sys.toGo` counts the steps that are left: a future is an entry of the `JoinSet` until it has ended,
and its share is the `Fut.toGo` of a cancelled future.  The pending polls of `on_err` and
`on_cancel` are counted apart, future by future. -/

namespace CorustHackathon.TaskManager

open Function (update)

variable {s s' : Sys} {a : Label}

/-! ### The measure -/

/-- The steps of the thread beside those for each `Task`. -/
def Background.toGo : Background → ℕ
  | build => 4
  | recv | joinNext => 3
  | joinAll => 2
  | exited => 1
  | panicked => 0

/-- The steps that are left once the cancel pass is over. -/
def Sys.toGo (s : Sys) : ℕ :=
  19 * s.chan.length + (s.js.map fun t => (s.fut t).toGo + 1).sum + s.background.toGo +
    (8 - s.dropping.rank)

/-- Where the shutdown stands once the cancel pass is over. -/
structure Settling (n : ℕ) (s : Sys) : Prop where
  reached : ∃ KEY tr, Run Step (init n KEY) tr s
  passed : 5 ≤ s.dropping.rank
  cancelled : AllCancelled s

namespace Settling

variable {n : ℕ}

theorem step (hS : Settling n s) (h : Step s a s') : Settling n s' := by
  obtain ⟨KEY, tr, hr⟩ := hS.reached
  have hrank := hS.passed
  exact ⟨⟨KEY, _, hr.snoc h⟩, hrank.trans h.rank_le, hS.cancelled.step hr (by omega) h⟩

theorem inv (hS : Settling n s) : Inv s := by
  obtain ⟨KEY, tr, hr⟩ := hS.reached
  exact .of_run hr

theorem not_alive (hS : Settling n s) : s.dropping ≠ .alive := fun ha => by
  have hrank := hS.passed
  rw [ha] at hrank
  simp [Dropping.rank] at hrank

/-- Nobody calls a manager that is being dropped. -/
theorem idle (hS : Settling n s) (c : ℕ) : s.call c = .idle := by
  obtain ⟨KEY, tr, hr⟩ := hS.reached
  by_contra hc
  exact hS.not_alive (alive_of_run hr hc)

/-! ### Every step counts -/

theorem futStep_toGo {t : ℕ} (hS : Settling n s) (h : FutStep t s a s') :
    s'.toGo + (if a.awaits = none then 1 else 0) ≤ s.toGo := by
  have f := h.frame
  have hle := h.toGo_le fun {b en todo} hf =>
    hS.cancelled t b (by rw [hf]; rfl) (by rw [hf]; rfl)
  have ht : t ∈ s.js :=
    (hS.inv.mail.js_unended f.spawned).resolve_right (by rw [f.live]; exact Bool.false_ne_true)
  have hother : ((s.js.erase t).map fun u => (s'.fut u).toGo + 1) =
      (s.js.erase t).map fun u => (s.fut u).toGo + 1 :=
    List.map_congr_left fun u hu => by
      have hne : u ≠ t := fun he => hS.inv.mail.js_nodup.not_mem_erase (he ▸ hu)
      rw [f.others u hne]
  have hs := List.sum_map_erase (fun u => (s.fut u).toGo + 1) ht
  have hs' := List.sum_map_erase (fun u => (s'.fut u).toGo + 1) ht
  rw [hother] at hs'
  unfold Sys.toGo
  rw [f.chan, f.js, f.background, f.dropping]
  omega

theorem backgroundStep_toGo (hS : Settling n s) (h : BackgroundStep s a s') :
    s'.toGo < s.toGo := by
  have hM := hS.inv.mail
  -- taking a completed entry out of the `JoinSet`
  have herase : ∀ {t}, t ∈ s.js → ((s.js.erase t).map fun u => (s.fut u).toGo + 1).sum <
      (s.js.map fun u => (s.fut u).toGo + 1).sum := fun {t} ht => by
    have := List.sum_map_erase (fun u => (s.fut u).toGo + 1) ht
    omega
  unfold Sys.toGo
  cases h with
  | @receive t rest hb hc =>
      have ht : t ∉ s.js := fun hm => hM.js_spawned hm (hM.chan_unspawned (by rw [hc]; simp))
      have hsame : (s.js.map fun u => (update s.fut t .acquire u).toGo + 1) =
          s.js.map fun u => (s.fut u).toGo + 1 :=
        List.map_congr_left fun u hu => by
          have hne : u ≠ t := fun he => ht (he ▸ hu)
          rw [Function.update_of_ne hne]
      have hbg : (if s.js.length + 1 > 1024 then Background.joinNext else .recv).toGo = 3 := by
        split_ifs <;> rfl
      have hacquire : Fut.acquire.toGo = 17 := rfl
      have hrecv : Background.recv.toGo = 3 := rfl
      simp only [List.map_cons, List.sum_cons, Function.update_self, hsame, hbg, hc, hb,
        List.length_cons, hacquire, hrecv]
      omega
  | built hb | exit hb => simp [hb, Background.toGo]
  | buildPanic hb => simp only [hb, Background.toGo, List.length_nil]; omega
  | closed hb => simp [hb, Background.toGo]
  | joinNext hb ht | joinAll hb ht =>
      have := herase ht
      simp only [hb, Background.toGo]
      omega

theorem dropStep_toGo (h : DropStep s a s') : s'.toGo < s.toGo := by
  have f := h.frame
  have hrank := h.rank_lt
  have hle : s'.dropping.rank ≤ 8 := by cases s'.dropping <;> decide
  unfold Sys.toGo
  rw [f.chan, f.js, f.fut, f.background]
  omega

/-- **Step lemma**: each step of the manager brings the shutdown closer to its end, but for the
polls of a pending callback, and a draw of another manager does not set it back. -/
theorem toGo_step (hS : Settling n s) (h : Step s a s') :
    s'.toGo + (if a.works then 1 else 0) ≤ s.toGo := by
  cases h with
  | other => exact le_rfl
  | own h =>
      cases h with
      | call c h =>
          exfalso
          have hc := hS.idle c
          cases h <;> simp_all [hS.not_alive]
      | fut t h => simpa [Label.works, h.actor] using hS.futStep_toGo h
      | background h =>
          have := hS.backgroundStep_toGo h
          split_ifs <;> omega
      | drop h =>
          have := dropStep_toGo h
          split_ifs <;> omega

/-- Only a future in the `JoinSet` is polled. -/
theorem awaits_mem {t : ℕ} (hS : Settling n s) (h : Step s a s') (ha : a.awaits = some t) :
    t ∈ s.js := by
  have spawned : s.fut t ≠ .unspawned ∧ (s.fut t).ended = false := by
    cases a with
    | onErrPending u b | onCancelPending u b =>
        have hut : u = t := by simpa [Label.awaits] using ha
        subst hut
        have f := (h.futStep rfl).frame
        exact ⟨f.spawned, f.live⟩
    | _ => cases ha
  exact (hS.inv.mail.js_unended spawned.1).resolve_right (by simp [spawned.2])

/-- No `Task` and no future is added. -/
theorem pool_subset (hS : Settling n s) (h : Step s a s') : s'.js ++ s'.chan ⊆ s.js ++ s.chan := by
  cases h with
  | other => exact List.Subset.refl _
  | own h =>
      cases h with
      | call c h =>
          exfalso
          have hc := hS.idle c
          cases h <;> simp_all [hS.not_alive]
      | fut t h => rw [h.frame.js, h.frame.chan]; exact List.Subset.refl _
      | drop h => rw [h.frame.js, h.frame.chan]; exact List.Subset.refl _
      | background h =>
          cases h with
          | receive hb hc => rw [hc]; simp
          | joinNext hb ht | joinAll hb ht =>
              exact List.append_subset.mpr ⟨fun u hu => by simp [List.mem_of_mem_erase hu],
                List.subset_append_right _ _⟩
          | buildPanic => simp
          | built | closed | exit => exact List.Subset.refl _

/-- The futures whose callbacks are polled in vain are those of the `JoinSet` and of the channel. -/
theorem awaits_run (hS : Settling n s) {tr : List Label} (h : Run Step s tr s') :
    ∀ a ∈ tr, ∀ t, a.awaits = some t → t ∈ s.js ++ s.chan := by
  have hall : Settling n s' ∧ s'.js ++ s'.chan ⊆ s.js ++ s.chan ∧
      ∀ a ∈ tr, ∀ t, a.awaits = some t → t ∈ s.js ++ s.chan := by
    induction h with
    | nil => exact ⟨hS, List.Subset.refl _, nofun⟩
    | snoc _ hs ih =>
        obtain ⟨hS₁, hsub, hmem⟩ := ih
        refine ⟨hS₁.step hs, List.Subset.trans (hS₁.pool_subset hs) hsub, fun a ha t hat => ?_⟩
        rcases List.mem_append.mp ha with ha | ha
        · exact hmem a ha t hat
        · rw [List.mem_singleton.mp ha] at hat
          exact hsub (List.mem_append_left _ (hS₁.awaits_mem hs hat))
  exact hall.2.2

/-! ### Some step is enabled -/

/-- A future that holds the lock of `waiting` can step. -/
theorem remove_enabled {t : ℕ} (hf : s.fut t = .remove) : CanMove t s := by
  cases hl : s.waiting.lookup (keyOf t) with
  | none => exact ⟨_, _, .miss hf hl, rfl⟩
  | some b => exact ⟨_, _, .take hf hl, rfl⟩

/-- A lock of a manager in its shutdown is held by a future, or by no one. -/
theorem exists_writer (hS : Settling n s) {p : Party} {W : Sys → Party → Prop}
    (hw : W s p) (hsec : W = Sys.writesWaiting ∨ W = Sys.writesOngoing) : ∃ t, W s (.future t) := by
  have hrank := hS.passed
  cases p with
  | future t => exact ⟨t, hw⟩
  | caller c => rcases hsec with rfl | rfl <;> simp [hS.idle c] at hw
  | background => rcases hsec with rfl | rfl <;> simp at hw
  | dropper =>
      rcases hsec with rfl | rfl <;> cases hd : s.dropping <;>
        simp [hd, Dropping.rank] at hw hrank

theorem waiting_enabled (hS : Settling n s) (hl : s.waitingLock ≠ .free) :
    ∃ t, CanMove t s := by
  by_contra hno
  refine hl (hS.inv.locks.waiting.eq_free (fun p hp => ?_) fun _ => id)
  obtain ⟨t, ht⟩ := hS.exists_writer hp (.inl rfl)
  cases hf : s.fut t with
  | remove => exact hno ⟨t, remove_enabled hf⟩
  | _ => simp [hf] at ht

/-- Whoever is behind `waiting` can step, or the one before it can. -/
theorem lockWaiting_enabled {t : ℕ} (hS : Settling n s) (hf : s.fut t = .lockWaiting) :
    ∃ t, CanMove t s := by
  by_cases hl : s.waitingLock = .free
  · exact ⟨t, _, _, .lockWaiting hf hl, rfl⟩
  · exact hS.waiting_enabled hl

theorem ongoing_enabled (hS : Settling n s) (hl : s.ongoingLock ≠ .free) :
    ∃ t, CanMove t s := by
  by_contra hno
  refine hl (hS.inv.locks.ongoing.eq_free (fun p hp => ?_) fun p hp => ?_)
  · obtain ⟨t, ht⟩ := hS.exists_writer hp (.inr rfl)
    cases hf : s.fut t with
    | lockWaiting => exact hno (hS.lockWaiting_enabled hf)
    | remove => exact hno ⟨t, remove_enabled hf⟩
    | elseReturn => exact hno ⟨t, _, _, .elseReturn hf, rfl⟩
    | insert b => exact hno ⟨t, _, _, .enter hf, rfl⟩
    | removeOngoing b => exact hno ⟨t, _, _, .leave hf, rfl⟩
    | _ => simp [hf] at ht
  · cases p with
    | caller c => simp [hS.idle c] at hp
    | _ => simp at hp

/-- A future with a permit can step, or one that it waits for can. -/
theorem permit_enabled {t : ℕ} (hS : Settling n s) (hp : (s.fut t).holdsPermit = true) :
    ∃ t, CanMove t s := by
  have ongoing : (s.ongoingLock = .free → CanMove t s) →
      ∃ t, CanMove t s := fun hfree => by
    by_cases hl : s.ongoingLock = .free
    · exact ⟨t, hfree hl⟩
    · exact hS.ongoing_enabled hl
  cases hf : s.fut t with
  | unspawned | acquire | done => simp [hf, Fut.holdsPermit] at hp
  | lockOngoing => exact ongoing fun hl => ⟨_, _, .lockOngoing hf hl, rfl⟩
  | lockRemove b => exact ongoing fun hl => ⟨_, _, .lockEnd hf hl, rfl⟩
  | lockWaiting => exact hS.lockWaiting_enabled hf
  | remove => exact ⟨t, remove_enabled hf⟩
  | elseReturn => exact ⟨t, _, _, .elseReturn hf, rfl⟩
  | insert b => exact ⟨t, _, _, .enter hf, rfl⟩
  | select b => exact ⟨t, _, _, .select hf, rfl⟩
  | between b en => exact ⟨t, _, _, .passBegin hf (.refl _), rfl⟩
  | polling b todo => exact ⟨t, _, _, .runPending hf, rfl⟩
  | onErr b => exact ⟨t, _, _, .onErrReturn hf, rfl⟩
  | onCancel b => exact ⟨t, _, _, .onCancelReturn hf, rfl⟩
  | removeOngoing b => exact ⟨t, _, _, .leave hf, rfl⟩
  | drop e => exact ⟨t, _, _, .release hf, rfl⟩
  | pass b en todo =>
      cases todo with
      | nil => exact ⟨t, _, _, .passEnd hf, rfl⟩
      | cons x todo =>
          cases x with
          | cancelled =>
              have hc := hS.cancelled t b (by rw [hf]; rfl) (by rw [hf]; rfl)
              exact ⟨t, _, _, .tokenCancelled hf hc, rfl⟩
          | run =>
              cases en with
              | true => exact ⟨t, _, _, .pollRun hf, rfl⟩
              | false => exact ⟨t, _, _, .skipRun hf, rfl⟩

/-- **Progress of the futures**: as long as a future has not ended, some future can step. -/
theorem fut_enabled {t : ℕ} (hS : Settling n s) (hn : 0 < n) (ht : s.fut t ≠ .unspawned)
    (hl : (s.fut t).ended = false) : ∃ t, CanMove t s := by
  by_cases hacq : s.fut t = .acquire
  · by_cases hp : 0 < s.permits
    · exact ⟨t, _, _, .acquire hacq hp, rfl⟩
    · -- someone else has the permits
      obtain ⟨KEY, tr, hr⟩ := hS.reached
      have hcard := (PermitInv.of_run hr).ncard_add
      have hne : {u | (s.fut u).holdsPermit = true}.Nonempty :=
        Set.nonempty_of_ncard_ne_zero (by omega)
      obtain ⟨u, hu⟩ := hne
      exact hS.permit_enabled hu
  · refine hS.permit_enabled (t := t) ?_
    revert ht hl hacq
    cases s.fut t <;> simp [Fut.holdsPermit, Fut.ended]

/-- The thread can step, or a future that it waits for can. -/
theorem background_enabled (hS : Settling n s) (hn : 0 < n) (htx : s.tx = false)
    (he : s.background ≠ .exited) (hp : s.background ≠ .panicked) :
    ∃ a s', OwnStep s a s' ∧ a.awaits = none := by
  obtain ⟨KEY, tr, hr⟩ := hS.reached
  -- an entry of the `JoinSet` can be taken out, or some future can step
  have join : ∀ {t}, t ∈ s.js →
      ((s.fut t).ended = true → ∃ a s', BackgroundStep s a s' ∧ a.awaits = none) →
      ∃ a s', OwnStep s a s' ∧ a.awaits = none := fun {t} ht hend => by
    cases hl : (s.fut t).ended with
    | true =>
        obtain ⟨a, s', h, ha⟩ := hend hl
        exact ⟨a, s', .background h, ha⟩
    | false =>
        obtain ⟨u, a, s', h, ha⟩ := hS.fut_enabled hn (hS.inv.mail.js_spawned ht) hl
        exact ⟨a, s', .fut u h, ha⟩
  cases hb : s.background with
  | build => exact ⟨_, _, .background (.built hb), rfl⟩
  | recv =>
      cases hc : s.chan with
      | nil => exact ⟨_, _, .background (.closed hb hc htx), rfl⟩
      | cons t rest => exact ⟨_, _, .background (.receive hb hc), rfl⟩
  | joinNext =>
      have hlen := (Capped.of_run hr).full hb
      obtain ⟨t, ht⟩ : ∃ t, t ∈ s.js := List.exists_mem_of_length_pos (by omega)
      exact join ht fun hend => ⟨_, _, .joinNext hb ht hend, rfl⟩
  | joinAll =>
      by_cases hj : s.js = []
      · exact ⟨_, _, .background (.exit hb hj), rfl⟩
      · obtain ⟨t, ht⟩ := List.exists_mem_of_ne_nil _ hj
        exact join ht fun hend => ⟨_, _, .joinAll hb ht hend, rfl⟩
  | exited => exact absurd hb he
  | panicked => exact absurd hb hp

end Settling

/-- `Drop` lets go of the sender before it joins. -/
theorem tx_of_rank {n KEY : ℕ} {tr : List Label} (h : Run Step (init n KEY) tr s)
    (hr : 6 ≤ s.dropping.rank) : s.tx = false := by
  refine h.preserves (I := fun s => 6 ≤ s.dropping.rank → s.tx = false) ?_
    (by simp [init, Manager.new, Dropping.rank]) hr
  intro s a s' ih hs
  cases hs with
  | other => exact ih
  | own hs =>
      cases hs with
      | call c hs => rw [hs.frame.dropping, hs.frame.tx]; exact ih
      | fut t hs => rw [hs.frame.dropping, hs.frame.tx]; exact ih
      | background hs => rw [hs.frame.dropping, hs.frame.tx]; exact ih
      | drop hs =>
          cases hs with
          | takeTx => exact fun _ => rfl
          | joinOk hd | joinErr hd => exact fun _ => ih (by rw [hd]; decide)
          | dropBegin | dropLockWaiting | drain | dropLockOngoing | cancelAll =>
              intro hr
              simp [Dropping.rank] at hr

/-- `drop` has returned and the thread has left its loop, or `drop` passes on the panic of a
thread that could not build its runtime. -/
def Joined (s : Sys) : Prop :=
  (s.dropping = .returned ∧ s.background = .exited) ∨
    (s.dropping = .panicked ∧ s.background = .panicked)

/-- What the thread was found to be stays. -/
theorem Joined.of_rank {n KEY : ℕ} {tr : List Label} (h : Run Step (init n KEY) tr s)
    (hd : s.dropping = .returned ∨ s.dropping = .panicked) : Joined s := by
  refine h.preserves (I := fun s => s.dropping = .returned ∨ s.dropping = .panicked → Joined s) ?_
    (by simp [init, Manager.new]) hd
  intro s a s' ih hs
  have keep : s'.dropping = s.dropping → s'.background = s.background →
      (s'.dropping = .returned ∨ s'.dropping = .panicked → Joined s') := fun h₁ h₂ => by
    unfold Joined
    rw [h₁, h₂]
    exact ih
  cases hs with
  | other => exact keep rfl rfl
  | own hs =>
      cases hs with
      | call c hs => exact keep hs.frame.dropping hs.frame.background
      | fut t hs => exact keep hs.frame.dropping hs.frame.background
      | background hs =>
          intro hd
          rw [hs.frame.dropping] at hd
          -- a thread that has ended takes no step
          rcases ih hd with ⟨_, hb⟩ | ⟨_, hb⟩ <;> cases hs <;> simp_all
      | drop hs =>
          cases hs with
          | joinOk hd hb => exact fun _ => .inl ⟨rfl, hb⟩
          | joinErr hd hb => exact fun _ => .inr ⟨rfl, hb⟩
          | dropBegin | dropLockWaiting | drain | dropLockOngoing | cancelAll | takeTx =>
              rintro (hd | hd) <;> cases hd

theorem Settling.enabled {n : ℕ} (hS : Settling n s) (hn : 0 < n) :
    Joined s ∨ ∃ a s', a.works = true ∧ Step s a s' := by
  have own : (∃ a s', OwnStep s a s' ∧ a.awaits = none) →
      ∃ a s', a.works = true ∧ Step s a s' := by
    rintro ⟨a, s', h, ha⟩
    refine ⟨a, s', ?_, .own h⟩
    cases h with
    | call c h => simp [Label.works, h.actor, ha]
    | fut t h => simp [Label.works, h.actor, ha]
    | background h => simp [Label.works, h.actor, ha]
    | drop h => simp [Label.works, h.actor, ha]
  obtain ⟨KEY, tr, hr⟩ := hS.reached
  have hrank := hS.passed
  cases hd : s.dropping with
  | alive | lockWaiting | drain | lockOngoing | cancelAll => simp [hd, Dropping.rank] at hrank
  | takeTx => exact .inr (own ⟨_, _, .drop (.takeTx hd), rfl⟩)
  | returned => exact .inl (.of_rank hr (.inl hd))
  | panicked => exact .inl (.of_rank hr (.inr hd))
  | join =>
      refine .inr (own ?_)
      by_cases he : s.background = .exited
      · exact ⟨_, _, .drop (.joinOk hd he), rfl⟩
      · by_cases hp : s.background = .panicked
        · exact ⟨_, _, .drop (.joinErr hd hp), rfl⟩
        · exact hS.background_enabled hn (tx_of_rank hr (by simp [hd, Dropping.rank])) he hp

/-- What is in store for a manager whose `drop` has cancelled what is in `ongoing`. -/
structure Returns (s : Sys) : Prop where
  /-- At most `toGo` steps are left beside the pending polls of `on_err` and `on_cancel`, and one of
  them can be taken for as long as `drop` has not come back from the join. -/
  finishes : Finishes Step Label.works Joined s.toGo s
  /-- If the callback of each future `t` returns after `polls t` pending polls, these are all that
  is added. -/
  bounded : ∀ {tr s'} (polls : ℕ → ℕ), Run Step s tr s' →
    (∀ t, tr.countP (fun a => a.awaits = some t) ≤ polls t) →
      tr.countP (fun a => a.actor.isSome) ≤ s.toGo + ((s.js ++ s.chan).map polls).sum

theorem Label.works_or (a : Label) : (a.works || a.awaits.isSome) = a.actor.isSome := by
  cases a <;> rfl

end CorustHackathon.TaskManager
