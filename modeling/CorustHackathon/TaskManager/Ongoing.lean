import CorustHackathon.TaskManager.History
import CorustHackathon.TaskManager.Permits

/-! # What is left in `ongoing`

A future removes its context by a statement behind the `select!`, which unwinding does not
reach, while its permit is released by a guard.  So as long as no callback panics the contexts
in `ongoing` are those of futures with a permit, and there are at most `parallel_num` of them;
and the context of a future whose callback panicked stays there for good. -/

namespace CorustHackathon.TaskManager

variable {s s' : Sys} {a : Label}

/-! ### Futures that have panicked -/

/-- A future has panicked when one of its callbacks has. -/
theorem FutStep.panicked {t : ℕ} (h : FutStep t s a s') :
    (s'.fut t).panicked = true ↔ (s.fut t).panicked = true ∨ ∃ b, a = .panic t b := by
  cases h with
  | @panic b h hb => simp [Fut.panicked]
  | @release e h => cases e <;> simp [h, Fut.panicked]
  | acquire h | lockOngoing h | lockWaiting h | take h | miss h | elseReturn h | enter h | select h
  | passBegin h | pollRun h | skipRun h | runPending h | runOk h | runErr h | tokenPending h
  | tokenCancelled h | passEnd h | onErrPending h | onErrReturn h | onCancelPending h
  | onCancelReturn h | lockEnd h | leave h =>
      simp [h, Fut.panicked]

theorem panicked_iff {n KEY : ℕ} {tr : List Label} (h : Run Step (init n KEY) tr s) (t : ℕ) :
    (s.fut t).panicked = true ↔ ∃ b, .panic t b ∈ tr := by
  refine h.invariant (I := fun tr s => (s.fut t).panicked = true ↔ ∃ b, .panic t b ∈ tr)
    (by simp [init, Manager.new, Fut.panicked]) fun tr s a s' hr ih hs => ?_
  have hsplit : (∃ b, .panic t b ∈ tr ++ [a]) ↔ (∃ b, .panic t b ∈ tr) ∨ ∃ b, a = .panic t b := by
    simp only [List.mem_append, List.mem_singleton, exists_or, eq_comm]
  have hother : (∀ b, a ≠ .panic t b) → (s'.fut t).panicked = (s.fut t).panicked →
      ((s'.fut t).panicked = true ↔ ∃ b, .panic t b ∈ tr ++ [a]) := by
    intro ha hf
    rw [hf, hsplit, ← ih]
    exact (or_iff_left (not_exists.mpr ha)).symm
  rcases (Inv.of_run hr).mail.fut_cases hs with ⟨u, hf⟩ | ⟨ha, hf⟩
  · by_cases htu : t = u
    · subst htu
      rw [hf.panicked, hsplit, ih]
    · refine hother (fun b hb => htu ?_) (by rw [hf.frame.others t htu])
      have := hf.actor
      rw [hb] at this
      injection this with this
      injection this
  · refine hother (fun b hb => ha t (by rw [hb]; rfl)) ?_
    rcases hf t with he | he
    · rw [he]
    · rw [he.1, he.2]; rfl

theorem Fut.holdsPermit_of_entered {f : Fut} (h : f.entered = true) : f.holdsPermit = true := by
  cases f <;> simp_all [Fut.entered, Fut.holdsPermit]

/-- A future that has panicked holds its permit until it has ended. -/
theorem Fut.holdsPermit_of_panicked {f : Fut} (h : f.panicked = true) :
    f.holdsPermit = true ↔ f.ended = false := by
  cases f <;> simp_all [Fut.panicked, Fut.holdsPermit, Fut.ended]

theorem Fut.not_holdsPermit_of_ended {f : Fut} (h : f.ended = true) : f.holdsPermit = false := by
  cases f <;> simp_all [Fut.ended, Fut.holdsPermit]

/-- No future has ended by a panic of one of its callbacks. -/
def NoneEndedByPanic (tr : List Label) (s : Sys) : Prop :=
  ∀ t b, .panic t b ∈ tr → (s.fut t).ended = false

/-- Then every context is that of a future with a permit. -/
theorem NoneEndedByPanic.holdsPermit {n KEY : ℕ} {tr : List Label}
    (hN : NoneEndedByPanic tr s) (h : Run Step (init n KEY) tr s) {k t : ℕ}
    (hl : s.ongoing.lookup k = some t) : (s.fut t).holdsPermit = true := by
  rcases (Inv.of_run h).contexts.entered hl with he | hp
  · exact Fut.holdsPermit_of_entered he
  · obtain ⟨b, hb⟩ := (panicked_iff h t).mp hp
    exact (Fut.holdsPermit_of_panicked hp).mpr (hN t b hb)

/-- As many contexts as permits. -/
theorem card_ongoing_le {n : ℕ} (hP : PermitInv n s) (hC : Contexts s)
    (hl : ∀ {k t}, s.ongoing.lookup k = some t → (s.fut t).holdsPermit = true) :
    s.ongoing.keys.card ≤ n := by
  have hsub : (s.ongoing.keys : Set ℕ) ⊆ keyOf '' {t | (s.fut t).holdsPermit = true} := by
    intro k hk
    obtain ⟨t, ht⟩ := Finmap.mem_iff.mp (Finmap.mem_keys.mp hk)
    exact ⟨t, hl ht, hC.key ht⟩
  calc s.ongoing.keys.card = (s.ongoing.keys : Set ℕ).ncard := (Set.ncard_coe_finset _).symm
    _ ≤ (keyOf '' {t | (s.fut t).holdsPermit = true}).ncard :=
        Set.ncard_le_ncard hsub (hP.finite.image _)
    _ ≤ {t | (s.fut t).holdsPermit = true}.ncard := Set.ncard_image_le hP.finite
    _ ≤ n := hP.ncard_le fun _ ht => ht

/-- Finished tasks have left no trace in `ongoing`. -/
structure NoTrace (n : ℕ) (s : Sys) : Prop where
  ended : ∀ t, (s.fut t).ended = true → s.ongoing.lookup (keyOf t) = none
  permit : ∀ k t, s.ongoing.lookup k = some t → keyOf t = k ∧ (s.fut t).holdsPermit = true
  size : s.ongoing.keys.card ≤ n

/-- **What a finished task leaves**: while `KEY` is drawn at most `2 ^ 64` times, finished tasks
have left no trace in `ongoing` exactly if none of them has ended by a panic.  Without the bound,
`ongoing` still holds only contexts of futures with a permit, and at most `n`, as long as none
has. -/
theorem finished_leaves_no_trace_iff {n KEY : ℕ} {tr : List Label}
    (h : Run Step (init n KEY) tr s) :
    (s.KEY ≤ usizeSize → (NoTrace n s ↔ NoneEndedByPanic tr s)) ∧
    (NoneEndedByPanic tr s →
      (∀ k t, s.ongoing.lookup k = some t → keyOf t = k ∧ (s.fut t).holdsPermit = true) ∧
      s.ongoing.keys.card ≤ n) := by
  have hI := Inv.of_run h
  have hpermit : NoneEndedByPanic tr s →
      (∀ k t, s.ongoing.lookup k = some t → keyOf t = k ∧ (s.fut t).holdsPermit = true) ∧
      s.ongoing.keys.card ≤ n := fun hN =>
    ⟨fun k t hl => ⟨hI.contexts.key hl, hN.holdsPermit h hl⟩,
      card_ongoing_le (.of_run h) hI.contexts (hN.holdsPermit h)⟩
  refine ⟨fun hK => ⟨fun hT t b hb => ?_, fun hN => ?_⟩, hpermit⟩
  · rw [← Bool.not_eq_true]
    intro he
    have hl := (refines h hK).2.2 (.inr ((panicked_iff h t).mpr ⟨b, hb⟩))
    rw [hT.ended t he] at hl
    cases hl
  · refine ⟨fun t he => Option.eq_none_iff_forall_ne_some.mpr fun u hu => ?_, (hpermit hN).1,
      (hpermit hN).2⟩
    -- a context with this key is that of this future
    have hut : u = keyOf t := hI.contexts.ongoing_eq hI.mail hK hu
    have ht : s.fut t ≠ .unspawned := fun hn => by rw [hn] at he; cases he
    rw [keyOf_of_lt ((hI.mail.fut_lt ht).trans_le hK)] at hut
    subst hut
    have := hN.holdsPermit h hu
    rw [Fut.not_holdsPermit_of_ended he] at this
    cases this

/-- A task that has run to `Ok` leaves no trace. -/
theorem finished_leaves_no_trace_iff_ok :
    NoTrace 1 ((init 1 0).built.launched.finished 0 0) := by
  have h := ((built_run 1 0).trans (launch_run (.built 1 0 0) Nat.one_pos)).trans
    (ok_run (t := 0) (b := 0) rfl rfl)
  refine ((finished_leaves_no_trace_iff h).1 (by decide)).mpr fun t b hp => ?_
  simp [launchTrace, spawnTrace, startTrace, okTrace] at hp

/-- **A panic leaks a context**: a task whose `run` has panicked has ended and given its permit
back, and with a second task there are two contexts for `parallel_num = 1`. -/
theorem finished_leaves_trace_after_panic : ∃ tr s, Run Step (init 1 0) tr s ∧
    ¬ NoTrace 1 s ∧ (s.fut 0).ended = true ∧ s.ongoing.lookup (keyOf 0) = some 0 ∧
    (s.fut 0).holdsPermit = false ∧ s.ongoing.keys.card = 2 := by
  have h := ((built_run 1 0).trans (launch_run (.built 1 0 0) Nat.one_pos)).trans
    (panic_run (t := 0) (b := 0) rfl)
  have h₂ := h.trans (launch_run (c := 0) ⟨rfl, rfl, rfl, rfl, rfl, rfl⟩ Nat.one_pos)
  exact ⟨_, _, h₂, fun hT => absurd hT.size (by decide), rfl, by decide, rfl, by decide⟩

end CorustHackathon.TaskManager
