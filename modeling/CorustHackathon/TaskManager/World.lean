import CorustHackathon.TaskManager.Endings

/-! # A process with many task managers

All managers of a process draw their keys from one static `KEY`.  A step of the process is a
step of one manager; the others see at most that `KEY` has moved on, so a run of the process is,
for each manager, a run in the sense of the earlier modules (`World.run_view`).  The draws of
different managers are different. -/

namespace CorustHackathon.TaskManager

open Function (update)

/-- A process: the static `KEY` and the managers. -/
structure World (ι : Type*) where
  KEY : ℕ
  mgr : ι → Manager

/-- What a step does to `KEY`. -/
theorem OwnStep.KEY {s s' : Sys} {a : Label} (h : OwnStep s a s') :
    (∃ c, a = .fetchAdd c s.KEY ∧ s'.KEY = s.KEY + 1) ∨
    ((∀ c d, a ≠ .fetchAdd c d) ∧ s'.KEY = s.KEY) := by
  cases h with
  | call c h =>
      cases h with
      | fetchAdd => exact .inl ⟨c, rfl, rfl⟩
      | _ => exact .inr ⟨nofun, rfl⟩
  | fut t h => exact .inr ⟨(by rintro c d rfl; cases h.actor), h.frame.KEY⟩
  | background h => exact .inr ⟨(by rintro c d rfl; cases h.actor), h.frame.KEY⟩
  | drop h => exact .inr ⟨(by rintro c d rfl; cases h.actor), h.frame.KEY⟩

namespace World

variable {ι : Type*} [DecidableEq ι] {w w' : World ι}

/-- Manager `i` with the `KEY` of its process. -/
def view (w : World ι) (i : ι) : Sys := { w.mgr i with KEY := w.KEY }

/-- A process that has drawn no key, with managers for `n i` permits. -/
def new (n : ι → ℕ) : World ι := ⟨0, fun i => .new (n i)⟩

/-- A step of manager `i` with label `a`. -/
def Step (w : World ι) (x : ι × Label) (w' : World ι) : Prop :=
  ∃ s', OwnStep (w.view x.1) x.2 s' ∧ w' = ⟨s'.KEY, update w.mgr x.1 s'.toManager⟩

/-- What manager `i` sees of a step. -/
def sees (i : ι) (x : ι × Label) : List Label :=
  if x.1 = i then [x.2]
  else match x.2 with
    | .fetchAdd _ _ => [.other]
    | _ => []

/-- What manager `i` sees of a run. -/
def trace (i : ι) (tr : List (ι × Label)) : List Label := tr.flatMap (sees i)

theorem mem_trace {i : ι} {tr : List (ι × Label)} {a : Label} (ha : a ≠ .other) :
    a ∈ trace i tr ↔ (i, a) ∈ tr := by
  simp only [trace, List.mem_flatMap, sees]
  constructor
  · rintro ⟨⟨j, b⟩, hm, hs⟩
    split_ifs at hs with hj
    · rw [List.mem_singleton] at hs
      rw [hs, ← hj]
      exact hm
    · cases b <;> simp [ha] at hs
  · exact fun hm => ⟨(i, a), hm, by simp⟩

theorem Step.view {i j : ι} {a : Label} (h : Step w (j, a) w') :
    Run TaskManager.Step (w.view i) (sees i (j, a)) (w'.view i) := by
  obtain ⟨s', hs, rfl⟩ := h
  by_cases hj : j = i
  · subst hj
    have hv : World.view ⟨s'.KEY, update w.mgr j s'.toManager⟩ j = s' := by simp [World.view]
    rw [hv, sees, if_pos rfl]
    exact .single (.own hs)
  · have hv : World.view ⟨s'.KEY, update w.mgr j s'.toManager⟩ i =
        { w.view i with KEY := s'.KEY } := by
      simp [World.view, Function.update_of_ne (Ne.symm hj)]
    rw [hv, sees, if_neg hj]
    rcases hs.KEY with ⟨c, ha, hK⟩ | ⟨ha, hK⟩
    · rw [hK, show a = _ from ha]
      exact .single .other
    · rw [hK]
      have hnil : (match (j, a).2 with | .fetchAdd _ _ => [Label.other] | _ => []) = [] := by
        cases a with
        | fetchAdd c d => exact absurd rfl (ha c d)
        | _ => rfl
      rw [hnil]
      exact .nil

theorem Step.own {i : ι} {a : Label} (h : Step w (i, a) w') :
    TaskManager.Step (w.view i) a (w'.view i) := by
  obtain ⟨s', hs, rfl⟩ := h
  have hv : World.view ⟨s'.KEY, update w.mgr i s'.toManager⟩ i = s' := by simp [World.view]
  rw [hv]
  exact .own hs

theorem Step.KEY_le {x : ι × Label} (h : Step w x w') : w.KEY ≤ w'.KEY := h.own.KEY_le

/-- A run of the process is a run of each manager. -/
theorem run_view {tr : List (ι × Label)} (h : Run Step w tr w') (i : ι) :
    Run TaskManager.Step (w.view i) (trace i tr) (w'.view i) := by
  obtain ⟨t, ht, rfl⟩ := Run.simulate (R := fun w s => s = World.view w i)
    (fun w s x w' hR hs => ⟨w'.view i, hR ▸ hs.view, rfl⟩) rfl h
  exact ht

theorem run_new {n : ι → ℕ} {tr : List (ι × Label)} (h : Run Step (new n) tr w) (i : ι) :
    Run TaskManager.Step (init (n i) 0) (trace i tr) (w.view i) := run_view h i

/-- What a manager can do while no other draws a key, it can do in the process. -/
theorem run_own {i : ι} {tr : List Label} {s : Sys} (h : Run TaskManager.Step (w.view i) tr s)
    (ho : .other ∉ tr) :
    Run Step w (tr.map (i, ·)) ⟨s.KEY, update w.mgr i s.toManager⟩ := by
  revert ho
  refine h.invariant (I := fun tr s => .other ∉ tr →
    Run Step w (tr.map (i, ·)) ⟨s.KEY, update w.mgr i s.toManager⟩) (fun _ => ?_) ?_
  · have hw : (⟨w.KEY, update w.mgr i (w.mgr i)⟩ : World ι) = w := by
      rw [Function.update_eq_self]
    have hnil : Run Step w [] w := .nil
    simpa [World.view, hw] using hnil
  · intro tr s a s' hr ih hs ho
    rw [List.mem_append, not_or] at ho
    rw [List.map_append]
    refine (ih ho.1).snoc ⟨s', ?_, by simp⟩
    have hv : World.view ⟨s.KEY, update w.mgr i s.toManager⟩ i = s := by simp [World.view]
    rw [hv]
    cases hs with
    | other => simp at ho
    | own hs => exact hs

/-! ### Draws are of one manager -/

/-- What the draws of a run have in common: they are below `KEY`, and each is of one manager. -/
structure Draws (tr : List (ι × Label)) (w : World ι) : Prop where
  lt : ∀ {i c d}, (i, .fetchAdd c d) ∈ tr → d < w.KEY
  owner : ∀ {i j c c' d}, (i, .fetchAdd c d) ∈ tr → (j, .fetchAdd c' d) ∈ tr → i = j

theorem Draws.step {tr : List (ι × Label)} {x : ι × Label} (hD : Draws tr w)
    (h : Step w x w') : Draws (tr ++ [x]) w' := by
  obtain ⟨s', hs, rfl⟩ := h
  rcases hs.KEY with ⟨c₀, ha, hK⟩ | ⟨ha, hK⟩
  · have hmem : ∀ {i c d}, (i, .fetchAdd c d) ∈ tr ++ [x] →
        (i, .fetchAdd c d) ∈ tr ∨ (i = x.1 ∧ d = w.KEY) := by
      intro i c d hm
      rcases List.mem_append.mp hm with hm | hm
      · exact .inl hm
      · rw [List.mem_singleton] at hm
        subst hm
        injection ha with _ hd
        exact .inr ⟨rfl, hd⟩
    constructor
    · intro i c d hm
      rw [hK]
      rcases hmem hm with hm | ⟨_, rfl⟩
      · exact Nat.lt_succ_of_lt (hD.lt hm)
      · exact Nat.lt_succ_self _
    · intro i j c c' d hi hj
      rcases hmem hi with hi | ⟨rfl, hd⟩ <;> rcases hmem hj with hj | ⟨rfl, hd'⟩
      · exact hD.owner hi hj
      · exact absurd (hD.lt hi) (hd' ▸ lt_irrefl _)
      · exact absurd (hD.lt hj) (hd ▸ lt_irrefl _)
      · rfl
  · have hmem : ∀ {i c d}, (i, .fetchAdd c d) ∈ tr ++ [x] → (i, .fetchAdd c d) ∈ tr := by
      intro i c d hm
      refine (List.mem_append.mp hm).resolve_right fun hm => ?_
      rw [List.mem_singleton] at hm
      exact ha c d (by rw [← hm])
    exact ⟨fun hm => by rw [hK]; exact hD.lt (hmem hm),
      fun hi hj => hD.owner (hmem hi) (hmem hj)⟩

theorem Draws.of_run {n : ι → ℕ} {tr : List (ι × Label)} (h : Run Step (new n) tr w) :
    Draws tr w :=
  h.invariant (I := Draws) ⟨nofun, nofun⟩ fun _ _ _ _ _ hD hs => hD.step hs

end World

end CorustHackathon.TaskManager
