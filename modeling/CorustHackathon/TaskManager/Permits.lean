import Mathlib.Data.Set.Card
import CorustHackathon.TaskManager.Invariant
import CorustHackathon.TaskManager.Sequential

/-! # The task manager: the parallel limit

Permits are conserved: those held by futures and those available in the semaphore are
`parallel_num` together, on every run and whatever way the futures end.  A future takes one
permit before it touches `waiting` and gives it back at its end, also when it unwinds. -/

namespace CorustHackathon.TaskManager

open Function (update)

/-- What a step of a future does to the semaphore. -/
theorem FutStep.permits {t : ℕ} {s s' : Sys} {a : Label} (h : FutStep t s a s') :
    (a = .acquire t ∧ s.fut t = .acquire ∧ s'.fut t = .lockOngoing ∧
      s'.permits + 1 = s.permits) ∨
    (a = .release t ∧ ∃ e, s.fut t = .drop e ∧ s'.fut t = .done e ∧
      s'.permits = s.permits + 1) ∨
    ((∀ u, a ≠ .acquire u ∧ a ≠ .release u) ∧ (s.fut t).holdsPermit = true ∧
      (s'.fut t).holdsPermit = true ∧ s'.permits = s.permits) := by
  cases h with
  | acquire h hp => exact .inl ⟨rfl, h, by simp, Nat.sub_add_cancel hp⟩
  | @release e h => exact .inr (.inl ⟨rfl, e, h, by simp, rfl⟩)
  | panic h hb =>
      refine .inr (.inr ⟨by simp, ?_, by simp [Fut.holdsPermit], rfl⟩)
      revert h
      cases s.fut t <;> simp [Fut.inCallback, Fut.holdsPermit]
  | lockOngoing h | lockWaiting h | take h | miss h | elseReturn h | enter h | select h
  | passBegin h | pollRun h | skipRun h | runPending h | runOk h | runErr h | tokenPending h
  | tokenCancelled h | passEnd h | onErrPending h | onErrReturn h | onCancelPending h
  | onCancelReturn h | lockEnd h | leave h =>
      exact .inr (.inr ⟨by simp, by simp [h, Fut.holdsPermit], by simp [Fut.holdsPermit], rfl⟩)

/-- The permits of the futures and of the semaphore are `n` together. -/
def PermitInv (n : ℕ) (s : Sys) : Prop :=
  ∃ F : Finset ℕ, (∀ t, t ∈ F ↔ (s.fut t).holdsPermit = true) ∧ F.card + s.permits = n

namespace PermitInv

variable {n : ℕ} {s s' : Sys} {a : Label}

theorem init (n KEY : ℕ) : PermitInv n (init n KEY) :=
  ⟨∅, by simp [TaskManager.init, Manager.new, Fut.holdsPermit], by
    simp [TaskManager.init, Manager.new]⟩

theorem congr (hP : PermitInv n s) (hf : ∀ t, (s'.fut t).holdsPermit = (s.fut t).holdsPermit)
    (hp : s'.permits = s.permits) : PermitInv n s' := by
  obtain ⟨F, hF, hn⟩ := hP
  exact ⟨F, fun t => by rw [hF, hf], by rw [hp, hn]⟩

theorem futStep {t : ℕ} (hP : PermitInv n s) (h : FutStep t s a s') : PermitInv n s' := by
  have f := h.frame
  obtain ⟨F, hF, hn⟩ := hP
  rcases h.permits with ⟨_, h₁, h₂, hp⟩ | ⟨_, e, h₁, h₂, hp⟩ | ⟨_, h₁, h₂, hp⟩
  · have ht : t ∉ F := fun hm => by simpa [h₁, Fut.holdsPermit] using (hF t).mp hm
    refine ⟨insert t F, fun u => ?_, ?_⟩
    · by_cases hu : u = t
      · simp [hu, h₂, Fut.holdsPermit]
      · rw [Finset.mem_insert, f.others u hu, hF u, or_iff_right hu]
    · rw [Finset.card_insert_of_notMem ht]
      omega
  · have ht : t ∈ F := (hF t).mpr (by rw [h₁]; rfl)
    refine ⟨F.erase t, fun u => ?_, ?_⟩
    · by_cases hu : u = t
      · simp [hu, h₂, Fut.holdsPermit]
      · rw [Finset.mem_erase, f.others u hu, hF u, and_iff_right hu]
    · have := Finset.card_erase_add_one ht
      omega
  · refine congr ⟨F, hF, hn⟩ (fun u => ?_) hp
    by_cases hu : u = t
    · rw [hu, h₁, h₂]
    · rw [f.others u hu]

theorem step (hP : PermitInv n s) (hM : Mail s) (h : Step s a s') : PermitInv n s' := by
  cases h with
  | other => exact hP.congr (fun _ => rfl) rfl
  | own h =>
      cases h with
      | call c h => exact hP.congr (by simp [h.frame.fut]) h.frame.permits
      | fut t h => exact hP.futStep h
      | drop h => exact hP.congr (by simp [h.frame.fut]) h.frame.permits
      | background h =>
          refine hP.congr (fun u => ?_) h.frame.permits
          rcases hM.backgroundStep_fut h u with hu | ⟨hu, hu'⟩
          · rw [hu]
          · simp [hu, hu', Fut.holdsPermit]

theorem of_run {KEY : ℕ} {tr : List Label} (h : Run Step (TaskManager.init n KEY) tr s) :
    PermitInv n s :=
  h.invariant (I := fun _ => PermitInv n) (.init n KEY) fun _ _ _ _ hr hP hs =>
    hP.step (Inv.of_run hr).mail hs

theorem finite (hP : PermitInv n s) : {t | (s.fut t).holdsPermit = true}.Finite := by
  obtain ⟨F, hF, _⟩ := hP
  exact F.finite_toSet.subset fun t ht => (hF t).mpr ht

theorem ncard_add (hP : PermitInv n s) :
    {t | (s.fut t).holdsPermit = true}.ncard + s.permits = n := by
  obtain ⟨F, hF, hn⟩ := hP
  have : {t | (s.fut t).holdsPermit = true} = ↑F := by
    ext t
    exact (hF t).symm
  rw [this, Set.ncard_coe_finset, hn]

/-- A set of futures that all hold a permit has at most `n` members. -/
theorem ncard_le (hP : PermitInv n s) {A : Set ℕ} (hA : ∀ t ∈ A, (s.fut t).holdsPermit = true) :
    A.ncard ≤ n := by
  have h₁ : A.ncard ≤ {t | (s.fut t).holdsPermit = true}.ncard := Set.ncard_le_ncard hA hP.finite
  have h₂ := hP.ncard_add
  omega

end PermitInv

/-! ### One permit for each future -/

/-- The permits that future `t` has taken in a run. -/
def permitsTaken (tr : List Label) (t : ℕ) : ℕ := tr.count (.acquire t)

/-- The permits that future `t` has given back in a run. -/
def permitsReturned (tr : List Label) (t : ℕ) : ℕ := tr.count (.release t)

theorem permitsTaken_snoc (tr : List Label) (a : Label) (t : ℕ) :
    permitsTaken (tr ++ [a]) t = permitsTaken tr t + if a = .acquire t then 1 else 0 := by
  simp [permitsTaken, List.count_singleton]

theorem permitsReturned_snoc (tr : List Label) (a : Label) (t : ℕ) :
    permitsReturned (tr ++ [a]) t = permitsReturned tr t + if a = .release t then 1 else 0 := by
  simp [permitsReturned, List.count_singleton]

/-- What a future has taken and given back, by where it is. -/
def Accounted (tr : List Label) (s : Sys) (t : ℕ) : Prop :=
  permitsTaken tr t = (if (s.fut t).holdsPermit ∨ (s.fut t).ended then 1 else 0) ∧
    permitsReturned tr t = if (s.fut t).ended then 1 else 0

theorem accounted_of_run {n KEY : ℕ} {tr : List Label} {s : Sys}
    (h : Run Step (init n KEY) tr s) (t : ℕ) : Accounted tr s t := by
  refine h.invariant (I := fun tr s => ∀ t, Accounted tr s t) ?_ ?_ t
  · intro t
    simp [Accounted, init, Manager.new, permitsTaken, permitsReturned, Fut.holdsPermit, Fut.ended]
  · intro tr s a s' hr hA hs t
    have hM := (Inv.of_run hr).mail
    -- a step of nobody's future, or of another future, changes nothing for `t`
    have keep : a ≠ .acquire t → a ≠ .release t →
        ((s'.fut t).holdsPermit = (s.fut t).holdsPermit ∧ (s'.fut t).ended = (s.fut t).ended) →
        Accounted (tr ++ [a]) s' t := by
      intro h₁ h₂ h₃
      simpa [Accounted, permitsTaken_snoc, permitsReturned_snoc, h₁, h₂, h₃] using hA t
    cases hs with
    | other => exact keep (by simp) (by simp) ⟨rfl, rfl⟩
    | own hs =>
        cases hs with
        | call c hs =>
            have ha : a.actor = some (.caller c) := hs.actor
            refine keep (by rintro rfl; cases ha) (by rintro rfl; cases ha) ?_
            rw [hs.frame.fut]
            exact ⟨rfl, rfl⟩
        | drop hs =>
            have ha : a.actor = some .dropper := hs.actor
            refine keep (by rintro rfl; cases ha) (by rintro rfl; cases ha) ?_
            rw [hs.frame.fut]
            exact ⟨rfl, rfl⟩
        | background hs =>
            have ha : a.actor = some .background := hs.actor
            refine keep (by rintro rfl; cases ha) (by rintro rfl; cases ha) ?_
            rcases hM.backgroundStep_fut hs t with ht | ⟨ht, ht'⟩
            · rw [ht]; exact ⟨rfl, rfl⟩
            · simp [ht, ht', Fut.holdsPermit, Fut.ended]
        | fut u hs =>
            have f := hs.frame
            by_cases htu : t = u
            · subst htu
              obtain ⟨hA₁, hA₂⟩ := hA t
              rcases hs.permits with ⟨rfl, h₁, h₂, _⟩ | ⟨rfl, e, h₁, h₂, _⟩ | ⟨ha, h₁, h₂, _⟩
              · simp [Accounted, permitsTaken_snoc, permitsReturned_snoc, hA₁, hA₂, h₁, h₂,
                  Fut.holdsPermit, Fut.ended]
              · simp [Accounted, permitsTaken_snoc, permitsReturned_snoc, hA₁, hA₂, h₁, h₂,
                  Fut.holdsPermit, Fut.ended]
              · refine keep (ha t).1 (ha t).2 ⟨by rw [h₁, h₂], ?_⟩
                rw [f.live]
                cases hf : s'.fut t <;> simp_all [Fut.holdsPermit, Fut.ended]
            · have ha : a ≠ .acquire t ∧ a ≠ .release t := by
                rcases hs.permits with ⟨rfl, _⟩ | ⟨rfl, _⟩ | ⟨ha, _⟩
                · exact ⟨fun he => htu (by injection he with he; exact he.symm), by simp⟩
                · exact ⟨by simp, fun he => htu (by injection he with he; exact he.symm)⟩
                · exact ha t
              exact keep ha.1 ha.2 (by rw [f.others t htu]; exact ⟨rfl, rfl⟩)

theorem Fut.holdsPermit_of_inSelect {f : Fut} (h : f.inSelect = true) : f.holdsPermit = true := by
  cases f <;> simp_all [Fut.inSelect, Fut.holdsPermit]

theorem Fut.holdsPermit_of_box {f : Fut} {b : ℕ} (h : f.box = some b) (he : f.ended = false) :
    f.holdsPermit = true := by
  cases f <;> simp_all [Fut.box, Fut.ended, Fut.holdsPermit]

/-- **The parallel limit**: on every run the permits held by futures and the available ones are
`n` together; at most `n` futures are between their move out of `waiting` and their end, and at
most `n` in the `select!` with its callbacks; and every future takes at most one permit and
gives it back exactly when it ends. -/
theorem parallel_limit {n KEY : ℕ} {tr : List Label} {s : Sys} (h : Run Step (init n KEY) tr s) :
    {t | (s.fut t).holdsPermit = true}.Finite ∧
    {t | (s.fut t).holdsPermit = true}.ncard + s.permits = n ∧
    {t | (s.fut t).box.isSome = true ∧ (s.fut t).ended = false}.ncard ≤ n ∧
    {t | (s.fut t).inSelect = true}.ncard ≤ n ∧
    {t | (s.fut t).inCallback = true}.ncard ≤ n ∧
    ∀ t, permitsTaken tr t ≤ 1 ∧
      permitsTaken tr t =
        permitsReturned tr t + (if (s.fut t).holdsPermit = true then 1 else 0) ∧
      ((s.fut t).ended = true → permitsTaken tr t = 1 ∧ permitsReturned tr t = 1) := by
  have hP := PermitInv.of_run h
  refine ⟨hP.finite, hP.ncard_add, hP.ncard_le ?_, hP.ncard_le ?_, hP.ncard_le ?_, fun t => ?_⟩
  · rintro t ⟨hb, he⟩
    obtain ⟨b, hb⟩ := Option.isSome_iff_exists.mp hb
    exact Fut.holdsPermit_of_box hb he
  · exact fun t => Fut.holdsPermit_of_inSelect
  · intro t ht
    refine Fut.holdsPermit_of_inSelect ?_
    revert ht
    rw [Set.mem_ofPred_eq]
    cases s.fut t <;> simp [Fut.inCallback, Fut.inSelect]
  · obtain ⟨h₁, h₂⟩ := accounted_of_run h t
    have hx : (s.fut t).holdsPermit = true → (s.fut t).ended = false := by
      cases s.fut t <;> simp [Fut.holdsPermit, Fut.ended]
    rw [h₁, h₂]
    cases hp : (s.fut t).holdsPermit <;> cases he : (s.fut t).ended <;> simp_all

/-- A running task holds the only permit. -/
theorem parallel_limit_launched :
    {t | ((init 1 0).built.launched.fut t).holdsPermit = true}.ncard = 1 := by
  have h := parallel_limit
    ((built_run 1 0).trans (launch_run (.built 1 0 0) Nat.one_pos))
  exact h.2.1

end CorustHackathon.TaskManager
