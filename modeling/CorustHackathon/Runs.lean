import Mathlib.Data.List.Induction
import Mathlib.Data.Set.Defs
import Mathlib.Order.Basic
import Mathlib.Algebra.Order.Monoid.Defs

/-! # Runs of labelled transition systems

A labelled transition system is a relation `step : σ → α → σ → Prop`.  `Run step s tr s'` says
that the labels `tr`, in order, lead from `s` to `s'`; the trace is the history of the run, so
that a property of the past ("a wake-up was issued before", "the entry was removed by a
cancel") is a property of `tr` and needs no ghost field in the state.

* `Run.invariant` is the induction rule for a relation between the history and the state,
  `Run.preserves` the one for a property of the state alone; `Run.flatMap_eq` is the rule for what
  is accumulated along a run.
* `snoc_eq_append_cons` says where a history can be cut that has become longer by one label.
* `Run.split` cuts a run where its trace is cut, `Run.split_at` at one label.
* `Run.simulate` is forward simulation: a step of the first system is matched by a (possibly
  empty) run of the second one.
* `histories step events s` are the histories that can be seen from `s` on when `events` says what
  is seen of a step; a simulation that keeps what is seen includes one set of them in another.
* `Guarded step G` are the steps taken where a condition `G` on the state and the label holds, and
  `CanReach step P` are the states with a run to one where `P` holds.  A condition is exact for
  a property if guarded runs keep the property and every other step can reach its failure. -/

namespace CorustHackathon

variable {σ τ α β : Type*} {step : σ → α → σ → Prop} {step' : τ → β → τ → Prop}

/-- Where a history that ends with `a` can be cut at `b`: at its end, or before. -/
theorem snoc_eq_append_cons {tr tr₁ tr₂ : List α} {a b : α} : tr ++ [a] = tr₁ ++ b :: tr₂ ↔
    (tr₂ = [] ∧ tr = tr₁ ∧ a = b) ∨ ∃ tr₃, tr₂ = tr₃ ++ [a] ∧ tr = tr₁ ++ b :: tr₃ := by
  constructor
  · intro h
    rcases List.eq_nil_or_concat tr₂ with rfl | ⟨tr₃, a', rfl⟩
    · obtain ⟨htr, ha⟩ := List.append_inj' h rfl
      exact .inl ⟨rfl, htr, List.singleton_inj.mp ha⟩
    · rw [List.concat_eq_append, ← List.cons_append, ← List.append_assoc] at h
      obtain ⟨htr, ha⟩ := List.append_inj' h rfl
      rw [List.concat_eq_append, ← ha]
      exact .inr ⟨tr₃, rfl, htr⟩
  · rintro (⟨rfl, rfl, rfl⟩ | ⟨tr₃, rfl, rfl⟩)
    · rfl
    · rw [List.append_assoc, List.cons_append]

/-- `Run step s tr s'`: the labels `tr` lead from `s` to `s'`. -/
inductive Run (step : σ → α → σ → Prop) (s : σ) : List α → σ → Prop
  | nil : Run step s [] s
  | snoc {s₁ s₂ : σ} {tr : List α} {a : α} :
      Run step s tr s₁ → step s₁ a s₂ → Run step s (tr ++ [a]) s₂

namespace Run

theorem single {s s' : σ} {a : α} (h : step s a s') : Run step s [a] s' := by
  have := Run.snoc .nil h
  simpa using this

theorem trans {s s₁ s₂ : σ} {tr₁ tr₂ : List α} (h₁ : Run step s tr₁ s₁)
    (h₂ : Run step s₁ tr₂ s₂) : Run step s (tr₁ ++ tr₂) s₂ := by
  induction h₂ with
  | nil => simpa using h₁
  | snoc _ hs ih =>
      rw [← List.append_assoc]
      exact ih.snoc hs

theorem cons {s s₁ s₂ : σ} {a : α} {tr : List α} (h : step s a s₁) (hr : Run step s₁ tr s₂) :
    Run step s (a :: tr) s₂ := (single h).trans hr

/-- The last step of a run. -/
theorem last {s s' : σ} {tr : List α} {a : α} (h : Run step s (tr ++ [a]) s') :
    ∃ m, Run step s tr m ∧ step m a s' := by
  generalize he : tr ++ [a] = tr' at h
  cases h with
  | nil => simp at he
  | snoc hr hs =>
      obtain ⟨rfl, ha⟩ := List.append_inj' he rfl
      rw [List.singleton_inj] at ha
      exact ⟨_, hr, ha ▸ hs⟩

/-- A run with one label is a step. -/
theorem of_single {s s' : σ} {a : α} (h : Run step s [a] s') : step s a s' := by
  have h : Run step s ([] ++ [a]) s' := h
  obtain ⟨m, hr, hs⟩ := h.last
  generalize he : [] = tr at hr
  cases hr with
  | nil => exact hs
  | snoc => simp at he

/-- A run whose trace is an append goes through a state in the middle. -/
theorem split {s s' : σ} {tr₁ tr₂ : List α} (h : Run step s (tr₁ ++ tr₂) s') :
    ∃ m, Run step s tr₁ m ∧ Run step m tr₂ s' := by
  induction tr₂ using List.reverseRecOn generalizing s' with
  | nil => exact ⟨s', by simpa using h, .nil⟩
  | append_singleton l a ih =>
      rw [← List.append_assoc] at h
      obtain ⟨s₁, hr, hs⟩ := h.last
      obtain ⟨m, h₁, h₂⟩ := ih hr
      exact ⟨m, h₁, h₂.snoc hs⟩

/-- A run goes through each label of its trace by a step. -/
theorem split_at {s s' : σ} {tr₁ tr₂ : List α} {a : α} (h : Run step s (tr₁ ++ a :: tr₂) s') :
    ∃ m m', Run step s tr₁ m ∧ step m a m' ∧ Run step m' tr₂ s' := by
  rw [← List.singleton_append, ← List.append_assoc] at h
  obtain ⟨m', h₁, h₂⟩ := h.split
  obtain ⟨m, h₀, hs⟩ := h₁.last
  exact ⟨m, m', h₀, hs, h₂⟩

/-- **Invariant rule**: a relation between the history and the state that holds at the start
and is kept by every step holds along every run. -/
theorem invariant {I : List α → σ → Prop} {s s' : σ} {tr : List α} (h : Run step s tr s')
    (h₀ : I [] s)
    (hstep : ∀ tr s₁ a s₂, Run step s tr s₁ → I tr s₁ → step s₁ a s₂ → I (tr ++ [a]) s₂) :
    I tr s' := by
  induction h with
  | nil => exact h₀
  | snoc hr hs ih => exact hstep _ _ _ _ hr ih hs

/-- A property of the state that every step keeps is kept by every run. -/
theorem preserves {I : σ → Prop} {s s' : σ} {tr : List α} (h : Run step s tr s')
    (hstep : ∀ s₁ a s₂, I s₁ → step s₁ a s₂ → I s₂) (h₀ : I s) : I s' :=
  h.invariant (I := fun _ => I) h₀ fun _ _ _ _ _ hi hs => hstep _ _ _ hi hs

/-- A measure that no step decreases is not decreased by a run. -/
theorem le_of_step {f : σ → ℕ} {s s' : σ} {tr : List α} (h : Run step s tr s')
    (hstep : ∀ s₁ a s₂, step s₁ a s₂ → f s₁ ≤ f s₂) : f s ≤ f s' :=
  h.preserves (I := fun s₁ => f s ≤ f s₁) (fun _ _ _ hi hs => hi.trans (hstep _ _ _ hs)) le_rfl

/-- **Accumulation rule**: a list to which every step appends what its label says holds, after a
run, what the trace says. -/
theorem flatMap_eq {f : σ → List β} {g : α → List β} {s s' : σ} {tr : List α}
    (h : Run step s tr s') (hstep : ∀ s₁ a s₂, step s₁ a s₂ → f s₂ = f s₁ ++ g a) :
    f s' = f s ++ tr.flatMap g := by
  induction h with
  | nil => simp
  | snoc _ hs ih => rw [hstep _ _ _ hs, ih, List.flatMap_append, List.flatMap_singleton,
      List.append_assoc]

/-- **Forward simulation**: if every step of the first system is matched by a run of the second
one with the labels `g a`, every run is matched by one with the labels `tr.flatMap g`. -/
theorem simulate {R : σ → τ → Prop} {g : α → List β}
    (hstep : ∀ s t a s', R s t → step s a s' → ∃ t', Run step' t (g a) t' ∧ R s' t')
    {s s' : σ} {t : τ} {tr : List α} (hR : R s t) (h : Run step s tr s') :
    ∃ t', Run step' t (tr.flatMap g) t' ∧ R s' t' := by
  induction h with
  | nil => exact ⟨t, .nil, hR⟩
  | snoc _ hs ih =>
      obtain ⟨t₁, h₁, hR₁⟩ := ih
      obtain ⟨t₂, h₂, hR₂⟩ := hstep _ _ _ _ hR₁ hs
      refine ⟨t₂, ?_, hR₂⟩
      simpa using h₁.trans h₂

end Run

/-- What can be seen of the runs from `s`. -/
def histories (step : σ → α → σ → Prop) (events : α → List β) (s : σ) : Set (List β) :=
  {es | ∃ tr s', Run step s tr s' ∧ tr.flatMap events = es}

/-- A simulation whose runs show what they simulate. -/
theorem histories_subset {γ : Type*} {R : σ → τ → Prop} {g : α → List β} {events : α → List γ}
    {events' : β → List γ} {s : σ} {t : τ}
    (hstep : ∀ s t a s', R s t → step s a s' → ∃ t', Run step' t (g a) t' ∧ R s' t')
    (hev : ∀ a, (g a).flatMap events' = events a) (hR : R s t) :
    histories step events s ⊆ histories step' events' t := by
  rintro _ ⟨tr, s', hr, rfl⟩
  obtain ⟨t', hr', -⟩ := Run.simulate hstep hR hr
  refine ⟨_, t', hr', ?_⟩
  rw [List.flatMap_assoc]
  simp only [hev]

/-- The steps that meet a condition on the state before them. -/
def Guarded (step : σ → α → σ → Prop) (G : σ → α → Prop) (s : σ) (a : α) (s' : σ) : Prop :=
  step s a s' ∧ G s a

/-- **Invariant rule for guarded runs**: an invariant `J` of all runs may be used to show that
the guarded steps keep `I`. -/
theorem Run.guarded {G : σ → α → Prop} {I J : σ → Prop} {s s' : σ} {tr : List α}
    (h : Run (Guarded step G) s tr s') (hJ : J s) (hI : I s)
    (hJstep : ∀ s₁ a s₂, J s₁ → step s₁ a s₂ → J s₂)
    (hIstep : ∀ s₁ a s₂, J s₁ → I s₁ → step s₁ a s₂ → G s₁ a → I s₂) : J s' ∧ I s' :=
  h.preserves (I := fun s => J s ∧ I s)
    (fun _ _ _ hi hs => ⟨hJstep _ _ _ hi.1 hs.1, hIstep _ _ _ hi.1 hi.2 hs.1 hs.2⟩) ⟨hJ, hI⟩

/-- Some run from here leads to a state where `P` holds. -/
def CanReach (step : σ → α → σ → Prop) (P : σ → Prop) (s : σ) : Prop :=
  ∃ tr s', Run step s tr s' ∧ P s'

namespace CanReach

variable {P : σ → Prop}

theorem here {s : σ} (h : P s) : CanReach step P s := ⟨[], s, .nil, h⟩

theorem cons {s s' : σ} {a : α} (h : step s a s') (hc : CanReach step P s') :
    CanReach step P s := by
  obtain ⟨tr, s'', hr, hp⟩ := hc
  exact ⟨_, _, hr.cons h, hp⟩

theorem trans {Q : σ → Prop} {s : σ} (h : CanReach step P s)
    (hc : ∀ s', P s' → CanReach step Q s') : CanReach step Q s := by
  obtain ⟨tr, s', hr, hp⟩ := h
  obtain ⟨tr', s'', hr', hq⟩ := hc s' hp
  exact ⟨_, _, hr.trans hr', hq⟩

/-- What can be reached can be reached in every system that simulates this one. -/
theorem simulate {R : σ → τ → Prop} {Q : τ → Prop} {s : σ} {t : τ} (h : CanReach step P s)
    (hstep : ∀ s t a s', R s t → step s a s' → ∃ tr t', Run step' t tr t' ∧ R s' t')
    (hQ : ∀ s t, R s t → P s → Q t) (hR : R s t) : CanReach step' Q t := by
  obtain ⟨tr, s', hr, hp⟩ := h
  obtain ⟨tr', t', hr', hR'⟩ := hr.preserves (I := fun s => ∃ tr t', Run step' t tr t' ∧ R s t')
    (fun s₁ a s₂ hi hs => by
      obtain ⟨tr₁, t₁, hr₁, hR₁⟩ := hi
      obtain ⟨tr₂, t₂, hr₂, hR₂⟩ := hstep _ _ _ _ hR₁ hs
      exact ⟨_, t₂, hr₁.trans hr₂, hR₂⟩) ⟨[], t, .nil, hR⟩
  exact ⟨tr', t', hr', hQ _ _ hR' hp⟩

end CanReach

end CorustHackathon
