import Mathlib.Algebra.BigOperators.Group.Finset.Basic
import Mathlib.Algebra.BigOperators.Group.List.Basic
import Mathlib.Algebra.Order.BigOperators.Group.List
import Mathlib.Algebra.Order.Ring.Nat
import Mathlib.Data.List.Count
import CorustHackathon.Runs

/-! # Termination of labelled transition systems

A system with many parties and an environment finishes when no schedule can avoid it: `own` marks
the steps that count as its work, the others (of the environment) are free to happen at any
time.  `Finishes step own P n s` says that from `s` at most `n` steps of the work are ever taken,
and that one of them is enabled for as long as `P` does not hold.  So every run in which the work
goes on where it can comes to a state where `P` holds.

* `Finishes.of_measure` is the rule: an invariant, a measure that the work decreases and that the
  environment does not increase, and a step of the work where `P` does not hold.
* `Finishes.countP_le` counts the steps that are no work as well, where each party takes only so
  many of them.
* `Finishes.run` says that it holds along every run, and `Finishes.canReach` that the end can be
  reached from there.
* `sum_update` is what a measure that is a sum over the parties becomes when one of them moves. -/

namespace CorustHackathon

variable {σ α : Type*} {step : σ → α → σ → Prop} {own : α → Bool}

/-- A measure that the marked steps decrease and no other step increases bounds the number of
marked steps of a run. -/
theorem Run.countP_add_le {m : σ → ℕ} {I : σ → Prop} {s s' : σ} {tr : List α}
    (h : Run step s tr s') (hI : I s) (keep : ∀ s₁ a s₂, I s₁ → step s₁ a s₂ → I s₂)
    (dec : ∀ s₁ a s₂, I s₁ → step s₁ a s₂ → m s₂ + (if own a then 1 else 0) ≤ m s₁) :
    I s' ∧ tr.countP own + m s' ≤ m s := by
  induction h with
  | nil => exact ⟨hI, by simp⟩
  | @snoc s₁ s₂ tr a _ hs ih =>
      obtain ⟨hI₁, hle⟩ := ih
      have hd := dec _ _ _ hI₁ hs
      refine ⟨keep _ _ _ hI₁ hs, ?_⟩
      rw [List.countP_append, List.countP_singleton]
      omega

/-- A measure that every step decreases bounds the length of a run. -/
theorem Run.length_add_le {m : σ → ℕ} {I : σ → Prop} {s s' : σ} {tr : List α}
    (h : Run step s tr s') (hI : I s) (keep : ∀ s₁ a s₂, I s₁ → step s₁ a s₂ → I s₂)
    (dec : ∀ s₁ a s₂, I s₁ → step s₁ a s₂ → m s₂ < m s₁) : tr.length + m s' ≤ m s := by
  have hle : tr.countP (fun _ => true) + m s' ≤ m s :=
    (h.countP_add_le hI keep fun s₁ a s₂ hI₁ hs => by
      rw [if_pos rfl]
      exact dec s₁ a s₂ hI₁ hs).2
  simpa using hle

theorem countP_or_le (p q : α → Bool) (tr : List α) :
    tr.countP (fun a => p a || q a) ≤ tr.countP p + tr.countP q := by
  induction tr with
  | nil => exact Nat.zero_le _
  | cons a tr ih =>
      simp only [List.countP_cons]
      cases p a <;> cases q a <;> simp <;> omega

/-- The steps of finitely many parties, counted for each. -/
theorem countP_isSome_le {ι : Type*} [DecidableEq ι] {who : α → Option ι} {L : List ι}
    {tr : List α} (hL : ∀ a ∈ tr, ∀ i, who a = some i → i ∈ L) :
    tr.countP (fun a => (who a).isSome) ≤
      (L.map fun i => tr.countP fun a => who a = some i).sum := by
  induction tr with
  | nil => exact Nat.zero_le _
  | cons a tr ih =>
      have hle := ih fun b hb => hL b (List.mem_cons_of_mem _ hb)
      have hsum : (L.map fun i => (a :: tr).countP fun a => who a = some i).sum =
          (L.map fun i => tr.countP fun a => who a = some i).sum +
            (L.map fun i => if who a = some i then 1 else 0).sum := by
        rw [← List.sum_map_add]
        simp only [List.countP_cons, decide_eq_true_eq]
      rw [hsum, List.countP_cons]
      refine Nat.add_le_add hle ?_
      cases hw : who a with
      | none => simp
      | some i =>
          have hi : i ∈ L := hL a List.mem_cons_self i hw
          have hmem : (if some i = some i then 1 else 0) ∈
              L.map fun j => if some i = some j then 1 else 0 := List.mem_map_of_mem hi
          simpa using List.single_le_sum (fun _ _ => Nat.zero_le _) _ hmem

/-- From `s` the work comes to an end where `P` holds, within `n` of its steps. -/
structure Finishes (step : σ → α → σ → Prop) (own : α → Bool) (P : σ → Prop) (n : ℕ) (s : σ) :
    Prop where
  bounded : ∀ {tr s'}, Run step s tr s' → tr.countP own ≤ n
  enabled : ∀ {tr s'}, Run step s tr s' → P s' ∨ ∃ a s'', own a = true ∧ step s' a s''

namespace Finishes

variable {P : σ → Prop} {n : ℕ} {s s' : σ} {tr : List α}

/-- **Measure rule**. -/
theorem of_measure (I : σ → Prop) (m : σ → ℕ) (hI : I s)
    (keep : ∀ s₁ a s₂, I s₁ → step s₁ a s₂ → I s₂)
    (dec : ∀ s₁ a s₂, I s₁ → step s₁ a s₂ → m s₂ + (if own a then 1 else 0) ≤ m s₁)
    (progress : ∀ s₁, I s₁ → P s₁ ∨ ∃ a s₂, own a = true ∧ step s₁ a s₂) :
    Finishes step own P (m s) s where
  bounded h := by
    have := (h.countP_add_le hI keep dec).2
    omega
  enabled h := progress _ (h.countP_add_le (m := m) hI keep dec).1

/-- With the idle steps of finitely many parties `L`, which are not counted as work and of which
party `i` takes at most `idle i`. -/
theorem countP_le (hF : Finishes step own P n s) (h : Run step s tr s') {ι : Type*}
    [DecidableEq ι] {who : α → Option ι} {L : List ι} {idle : ι → ℕ}
    (hL : ∀ a ∈ tr, ∀ i, who a = some i → i ∈ L)
    (hidle : ∀ i, tr.countP (fun a => who a = some i) ≤ idle i) :
    tr.countP (fun a => own a || (who a).isSome) ≤ n + (L.map idle).sum := by
  have hwork := hF.bounded h
  have hsum := (countP_isSome_le hL).trans (List.sum_le_sum fun i _ => hidle i)
  have hle := countP_or_le own (fun a => (who a).isSome) tr
  omega

/-- What is left of the work after a run. -/
theorem run (hF : Finishes step own P n s) (h : Run step s tr s') :
    Finishes step own P (n - tr.countP own) s' where
  bounded h' := by
    have := hF.bounded (h.trans h')
    rw [List.countP_append] at this
    omega
  enabled h' := hF.enabled (h.trans h')

/-- The work can be brought to its end by its own steps, from wherever it is. -/
theorem canReach (hF : Finishes step own P n s) :
    ∃ tr s', Run step s tr s' ∧ P s' ∧ tr.all own = true ∧ tr.length ≤ n := by
  induction n generalizing s with
  | zero =>
      refine ⟨[], s, .nil, (hF.enabled .nil).resolve_right ?_, rfl, le_rfl⟩
      rintro ⟨a, s', ha, hs⟩
      have := hF.bounded (.single hs)
      simp [ha] at this
  | succ n ih =>
      rcases hF.enabled .nil with hP | ⟨a, s₁, ha, hs⟩
      · exact ⟨[], s, .nil, hP, rfl, Nat.zero_le _⟩
      · have hF₁ : Finishes step own P n s₁ := by
          have := hF.run (.single hs)
          simpa [ha] using this
        obtain ⟨tr, s', hr, hP, hown, hlen⟩ := ih hF₁
        refine ⟨a :: tr, s', hr.cons hs, hP, ?_, ?_⟩
        · simp only [List.all_cons, ha, hown, Bool.and_true]
        · simpa using hlen

end Finishes

theorem sum_update {ι β M : Type*} [DecidableEq ι] [AddCommMonoid M] (g : β → M) {f : ι → β}
    {t : Finset ι} {i : ι} (h : i ∈ t) (b : β) :
    (∑ j ∈ t, g (Function.update f i b j)) + g (f i) = (∑ j ∈ t, g (f j)) + g b := by
  have hrest : ∑ j ∈ t.erase i, g (Function.update f i b j) = ∑ j ∈ t.erase i, g (f j) :=
    Finset.sum_congr rfl fun j hj => by rw [Function.update_of_ne (Finset.ne_of_mem_erase hj)]
  rw [← Finset.add_sum_erase _ _ h, ← Finset.add_sum_erase _ (fun j => g (f j)) h, hrest,
    Function.update_self, add_right_comm, add_comm (g b), add_right_comm]

end CorustHackathon
