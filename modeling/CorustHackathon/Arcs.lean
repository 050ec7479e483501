import Mathlib.Data.Finset.Card
import Mathlib.Logic.Function.Basic

/-! # Reference counts

`Arcs α` is a heap of reference-counted allocations (`Arc<α>`): a pointer names an allocation, which
is freed when its count falls to zero.  Nothing in the operations says that a count is right;
`Counted A H` does, where `H o p` says that the owner `o` holds the pointer `p`: each count is
the number of its owners, so that what is held is alive (`Counted.get_of_holds`) and what nobody
holds is freed (`Counted.get_iff`).

`Counted.alloc`, `Counted.clone`, `Counted.drop` and `Counted.give` say how the operations keep it.
The clone has a premise of its own: whoever increments a count holds nothing yet and has to know
otherwise that the allocation is still there. -/

namespace CorustHackathon

open Function (update)

variable {α O : Type*}

/-! ### Counting owners -/

/-- `n` is the number of those for whom `H` holds. -/
def Counts (n : ℕ) (H : O → Prop) : Prop := ∃ F : Finset O, (∀ o, o ∈ F ↔ H o) ∧ F.card = n

namespace Counts

variable {n : ℕ} {H H' : O → Prop} {o o' : O}

theorem congr (h : Counts n H) (hH : ∀ q, H' q ↔ H q) : Counts n H' := by
  obtain ⟨F, hF, hn⟩ := h
  exact ⟨F, fun q => (hF q).trans (hH q).symm, hn⟩

theorem pos_iff (h : Counts n H) : 0 < n ↔ ∃ o, H o := by
  obtain ⟨F, hF, rfl⟩ := h
  rw [Finset.card_pos]
  exact exists_congr hF

theorem of_not (hH : ∀ o, ¬ H o) : Counts 0 H := ⟨∅, by simp [hH], rfl⟩

theorem gain [DecidableEq O] (h : Counts n H) (ho : ¬ H o) (hH : ∀ q, H' q ↔ q = o ∨ H q) :
    Counts (n + 1) H' := by
  obtain ⟨F, hF, rfl⟩ := h
  have hm : o ∉ F := fun hm => ho ((hF o).mp hm)
  refine ⟨insert o F, fun q => ?_, Finset.card_insert_of_notMem hm⟩
  rw [Finset.mem_insert, hF q, hH q]

theorem lose [DecidableEq O] (h : Counts n H) (ho : H o) (hH : ∀ q, H' q ↔ q ≠ o ∧ H q) :
    Counts (n - 1) H' := by
  obtain ⟨F, hF, rfl⟩ := h
  refine ⟨F.erase o, fun q => ?_, Finset.card_erase_of_mem ((hF o).mpr ho)⟩
  rw [Finset.mem_erase, hF q, hH q]

end Counts

/-! ### The heap -/

/-- Reference-counted allocations, each with its value and its strong count. -/
structure Arcs (α : Type*) where
  cell : ℕ → Option (α × ℕ)
  /-- The name of the next allocation. -/
  next : ℕ

namespace Arcs

variable (A : Arcs α) (p q : ℕ) (v : α)

/-- Nothing is allocated. -/
def empty : Arcs α := ⟨fun _ => none, 0⟩

/-- The value behind a pointer, unless it was freed. -/
def get : Option α := (A.cell p).map Prod.fst

def strong : ℕ := (A.cell p).elim 0 Prod.snd

/-- `Arc::new(v)`; the pointer is `A.next`. -/
def alloc : Arcs α := ⟨update A.cell A.next (some (v, 1)), A.next + 1⟩

/-- The increment of `Arc::clone`. -/
def clone : Arcs α := { A with cell := update A.cell p ((A.cell p).map fun c => (c.1, c.2 + 1)) }

/-- The decrement of `Arc::drop`, which frees the allocation when it was the last one. -/
def drop : Arcs α where
  cell := update A.cell p ((A.cell p).bind fun c => if c.2 ≤ 1 then none else some (c.1, c.2 - 1))
  next := A.next

theorem cell_alloc : (A.alloc v).cell q = if q = A.next then some (v, 1) else A.cell q :=
  Function.update_apply _ _ _ _

theorem cell_clone : (A.clone p).cell q =
    if q = p then (A.cell p).map fun c => (c.1, c.2 + 1) else A.cell q :=
  Function.update_apply _ _ _ _

theorem cell_drop : (A.drop p).cell q =
    if q = p then (A.cell p).bind fun c => if c.2 ≤ 1 then none else some (c.1, c.2 - 1)
    else A.cell q :=
  Function.update_apply _ _ _ _

theorem get_alloc_self : (A.alloc v).get A.next = some v := by
  simp [get, cell_alloc]

theorem get_alloc (hq : q ≠ A.next) : (A.alloc v).get q = A.get q := by
  simp [get, cell_alloc, hq]

@[simp] theorem get_clone : (A.clone p).get q = A.get q := by
  unfold get
  rw [cell_clone]
  split_ifs with hq
  · subst hq
    cases A.cell q <;> rfl
  · rfl

/-- A drop changes no value. -/
theorem get_drop (h : (A.drop p).get q ≠ none) : (A.drop p).get q = A.get q := by
  unfold get at *
  rw [cell_drop] at *
  split_ifs at h ⊢ with hq
  · subst hq
    cases hc : A.cell q with
    | none => rfl
    | some c =>
        by_cases hn : c.2 ≤ 1
        · simp [hc, hn] at h
        · simp [hn]
  · rfl

theorem strong_alloc : (A.alloc v).strong q = if q = A.next then 1 else A.strong q := by
  unfold strong
  rw [cell_alloc]
  split_ifs <;> rfl

variable {p} in
theorem strong_clone (hp : A.get p ≠ none) :
    (A.clone p).strong q = if q = p then A.strong q + 1 else A.strong q := by
  unfold strong
  rw [cell_clone]
  split_ifs with hq
  · subst hq
    cases hc : A.cell q with
    | none => simp [get, hc] at hp
    | some c => rfl
  · rfl

theorem strong_drop : (A.drop p).strong q = if q = p then A.strong q - 1 else A.strong q := by
  unfold strong
  rw [cell_drop]
  split_ifs with hq
  · subst hq
    cases A.cell q with
    | none => rfl
    | some c =>
        by_cases hn : c.2 ≤ 1
        · simp [hn]
        · simp [hn]
  · rfl

end Arcs

/-! ### Heaps that are owned -/

/-- The counts are those of the owners: `H o p` says that `o` holds `p`. -/
structure Counted (A : Arcs α) (H : O → ℕ → Prop) : Prop where
  counts : ∀ p, Counts (A.strong p) (H · p)
  live : ∀ {p v n}, A.cell p = some (v, n) → 0 < n
  fresh : ∀ {p}, A.next ≤ p → A.cell p = none

namespace Counted

variable {A : Arcs α} {H H' : O → ℕ → Prop} {o o' : O} {p : ℕ} {v : α}

theorem empty (hH : ∀ o p, ¬ H o p) : Counted (.empty : Arcs α) H where
  counts p := .of_not fun o => hH o p
  live h := by cases h
  fresh _ := rfl

/-- **What is allocated is what somebody holds.** -/
theorem get_iff (h : Counted A H) : (∃ v, A.get p = some v) ↔ ∃ o, H o p := by
  rw [← (h.counts p).pos_iff]
  unfold Arcs.get Arcs.strong
  cases hc : A.cell p with
  | none => simp
  | some c => simpa using h.live (v := c.1) hc

/-- **What is held is alive.** -/
theorem get_of_holds (h : Counted A H) (ho : H o p) : ∃ v, A.get p = some v := h.get_iff.mpr ⟨o, ho⟩

theorem lt_next (h : Counted A H) (ho : H o p) : p < A.next := by
  by_contra hp
  obtain ⟨v, hv⟩ := h.get_of_holds ho
  unfold Arcs.get at hv
  rw [h.fresh (by omega)] at hv
  cases hv

theorem congr (h : Counted A H) (hH : ∀ q r, H' q r ↔ H q r) : Counted A H' where
  counts r := (h.counts r).congr fun q => hH q r
  live := h.live
  fresh := h.fresh

/-- A new allocation, held by `o`. -/
theorem alloc [DecidableEq O] (h : Counted A H)
    (hH : ∀ q r, H' q r ↔ (q = o ∧ r = A.next) ∨ H q r) : Counted (A.alloc v) H' where
  counts r := by
    rw [Arcs.strong_alloc]
    by_cases hr : r = A.next
    · subst hr
      have hnone : ∀ q, ¬ H q A.next := fun q hq => lt_irrefl _ (h.lt_next hq)
      rw [if_pos rfl]
      exact (Counts.of_not hnone).gain (hnone o) fun q => by simp [hH]
    · rw [if_neg hr]
      exact (h.counts r).congr fun q => by simp [hH, hr]
  live {r w n} hc := by
    rw [Arcs.cell_alloc] at hc
    split_ifs at hc with hr
    · cases hc
      exact Nat.one_pos
    · exact h.live hc
  fresh {r} hr := by
    have hr : A.next + 1 ≤ r := hr
    rw [Arcs.cell_alloc, if_neg (by omega)]
    exact h.fresh (by omega)

/-- One owner more of an allocation that is still there. -/
theorem clone [DecidableEq O] (h : Counted A H) (hp : A.get p ≠ none) (ho : ¬ H o p)
    (hH : ∀ q r, H' q r ↔ (q = o ∧ r = p) ∨ H q r) : Counted (A.clone p) H' where
  counts r := by
    rw [A.strong_clone r hp]
    by_cases hr : r = p
    · subst hr
      rw [if_pos rfl]
      exact (h.counts r).gain ho fun q => by simp [hH]
    · rw [if_neg hr]
      exact (h.counts r).congr fun q => by simp [hH, hr]
  live {r w n} hc := by
    rw [Arcs.cell_clone] at hc
    split_ifs at hc with hr
    · obtain ⟨c, -, he⟩ := Option.map_eq_some_iff.mp hc
      cases he
      exact Nat.succ_pos _
    · exact h.live hc
  fresh {r} hr := by
    have hnone := h.fresh hr
    rw [Arcs.cell_clone]
    split_ifs with hrp
    · rw [← hrp, hnone]
      rfl
    · exact hnone

/-- One owner less. -/
theorem drop [DecidableEq O] (h : Counted A H) (ho : H o p)
    (hH : ∀ q r, H' q r ↔ ¬ (q = o ∧ r = p) ∧ H q r) : Counted (A.drop p) H' where
  counts r := by
    rw [Arcs.strong_drop]
    by_cases hr : r = p
    · subst hr
      rw [if_pos rfl]
      exact (h.counts r).lose ho fun q => by simp [hH]
    · rw [if_neg hr]
      exact (h.counts r).congr fun q => by simp [hH, hr]
  live {r w n} hc := by
    rw [Arcs.cell_drop] at hc
    split_ifs at hc with hr
    · obtain ⟨c, -, he⟩ := Option.bind_eq_some_iff.mp hc
      split_ifs at he with hn
      cases he
      omega
    · exact h.live hc
  fresh {r} hr := by
    have hnone := h.fresh hr
    rw [Arcs.cell_drop]
    split_ifs with hrp
    · rw [← hrp, hnone]
      rfl
    · exact hnone

/-- An owner passes its pointer on. -/
theorem give [DecidableEq O] (h : Counted A H) (ho : H o p) (ho' : ¬ H o' p)
    (hH : ∀ q r, H' q r ↔ (q = o' ∧ r = p) ∨ ¬ (q = o ∧ r = p) ∧ H q r) : Counted A H' where
  counts r := by
    by_cases hr : r = p
    · subst hr
      have hpos : 0 < A.strong r := (h.counts r).pos_iff.mpr ⟨o, ho⟩
      have hlose : Counts (A.strong r - 1) fun q => q ≠ o ∧ H q r :=
        (h.counts r).lose ho fun _ => Iff.rfl
      have hgain : Counts (A.strong r - 1 + 1) (H' · r) :=
        hlose.gain (fun hn => ho' hn.2) fun q => by simp [hH]
      rwa [Nat.sub_add_cancel hpos] at hgain
    · exact (h.counts r).congr fun q => by simp [hH, hr]
  live := h.live
  fresh := h.fresh

/-- A drop leaves what is still held as it was. -/
theorem get_drop {q : ℕ} (h : Counted (A.drop p) H) (ho : H o q) : (A.drop p).get q = A.get q := by
  obtain ⟨v, hv⟩ := h.get_of_holds ho
  exact A.get_drop p q (by rw [hv]; exact Option.some_ne_none v)

end Counted

end CorustHackathon
