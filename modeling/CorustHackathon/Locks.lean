import Mathlib.Data.Finset.Insert
import Mathlib.Data.Finset.Erase

/-! # Reader-writer locks and lock orders

`RwLock P` is the state of a reader-writer lock whose guards are held by parties of type `P`:
held by one writer, or by a set of readers (by no one when the set is empty).  A writer next to
a reader, or two writers, cannot be written down.

`Owned l W R` ties the lock to the program counters of the parties: `W p` says that party `p`
is in a section that holds the write guard, `R p` that it is in one that holds a read guard.
The lemmas `Owned.same`, `Owned.write`, `Owned.unwrite`, `Owned.read` and `Owned.unread` say how
one party that moves keeps it.

`no_deadlock` is the lock-order argument: when every party that holds a lock asks only for
locks of higher rank, no set of parties is blocked on locks whose holders are all in the set. -/

namespace CorustHackathon

/-- A reader-writer lock: its readers, or its writer. -/
inductive RwLock (P : Type*) where
  | reading (ps : Finset P)
  | writing (p : P)

namespace RwLock

variable {P : Type*}

/-- No guard is out. -/
def free : RwLock P := reading ∅

/-- `p` holds the write guard. -/
def WrittenBy (l : RwLock P) (p : P) : Prop := l = writing p

/-- `p` holds a read guard. -/
def ReadBy : RwLock P → P → Prop
  | reading ps, p => p ∈ ps
  | writing _, _ => False

/-- `p` holds a guard. -/
def HeldBy (l : RwLock P) (p : P) : Prop := l.WrittenBy p ∨ l.ReadBy p

@[simp] theorem writtenBy_writing (p q : P) : (writing p).WrittenBy q ↔ p = q := by
  simp [WrittenBy]

@[simp] theorem not_writtenBy_reading (ps : Finset P) (p : P) : ¬ (reading ps).WrittenBy p := by
  simp [WrittenBy]

@[simp] theorem not_writtenBy_free (p : P) : ¬ (free : RwLock P).WrittenBy p := by
  simp [free]

@[simp] theorem readBy_reading (ps : Finset P) (p : P) : (reading ps).ReadBy p ↔ p ∈ ps := Iff.rfl

@[simp] theorem not_readBy_writing (p q : P) : ¬ (writing p).ReadBy q := id

@[simp] theorem not_readBy_free (p : P) : ¬ (free : RwLock P).ReadBy p := by
  simp [free]

theorem WrittenBy.not_readBy {l : RwLock P} {p q : P} (h : l.WrittenBy p) : ¬ l.ReadBy q := by
  rw [WrittenBy] at h
  simp [h]

theorem WrittenBy.unique {l : RwLock P} {p q : P} (hp : l.WrittenBy p) (hq : l.WrittenBy q) :
    p = q := by
  rw [WrittenBy] at hp hq
  rw [hp] at hq
  simpa using hq

/-- A reader more; only a lock without a writer is asked for it. -/
def read [DecidableEq P] (l : RwLock P) (p : P) : RwLock P :=
  match l with
  | reading ps => reading (insert p ps)
  | writing q => writing q

/-- A reader less. -/
def unread [DecidableEq P] (l : RwLock P) (p : P) : RwLock P :=
  match l with
  | reading ps => reading (ps.erase p)
  | writing q => writing q

/-- The guards that are out are those of the parties in the sections `W` and `R`. -/
structure Owned (l : RwLock P) (W R : P → Prop) : Prop where
  write_iff : ∀ p, l.WrittenBy p ↔ W p
  read_iff : ∀ p, l.ReadBy p ↔ R p

namespace Owned

variable {l : RwLock P} {W R W' R' : P → Prop} {p q : P}

theorem free_init (hW : ∀ p, ¬ W p) (hR : ∀ p, ¬ R p) : Owned free W R :=
  ⟨fun p => by simp [hW p], fun p => by simp [hR p]⟩

/-- Two parties in write sections are one. -/
theorem write_unique (h : Owned l W R) (hp : W p) (hq : W q) : p = q :=
  ((h.write_iff p).mpr hp).unique ((h.write_iff q).mpr hq)

/-- A write section excludes the read sections. -/
theorem write_not_read (h : Owned l W R) (hp : W p) : ¬ R q := fun hq =>
  ((h.write_iff p).mpr hp).not_readBy ((h.read_iff q).mpr hq)

theorem eq_writing (h : Owned l W R) (hp : W p) : l = writing p := (h.write_iff p).mpr hp

/-- Nobody is in a section of a free lock. -/
theorem of_free (h : Owned free W R) (p : P) : ¬ W p ∧ ¬ R p :=
  ⟨fun hw => not_writtenBy_free p ((h.write_iff p).mpr hw),
    fun hr => not_readBy_free p ((h.read_iff p).mpr hr)⟩

/-- A lock is free when nobody is in a section. -/
theorem eq_free (h : Owned l W R) (hW : ∀ p, ¬ W p) (hR : ∀ p, ¬ R p) : l = free := by
  cases l with
  | writing p => exact absurd ((h.write_iff p).mp rfl) (hW p)
  | reading ps =>
      have hps : ps = ∅ := Finset.eq_empty_iff_forall_notMem.mpr fun p hp =>
        hR p ((h.read_iff p).mp hp)
      rw [hps, free]

/-- Party `p` moves without entering or leaving a section. -/
theorem same (h : Owned l W R) (hW : ∀ q, q ≠ p → (W' q ↔ W q)) (hR : ∀ q, q ≠ p → (R' q ↔ R q))
    (hWp : W' p ↔ W p) (hRp : R' p ↔ R p) : Owned l W' R' := by
  constructor
  · intro q
    rw [h.write_iff q]
    by_cases hq : q = p
    · rw [hq, hWp]
    · exact (hW q hq).symm
  · intro q
    rw [h.read_iff q]
    by_cases hq : q = p
    · rw [hq, hRp]
    · exact (hR q hq).symm

/-- Party `p` takes the write guard of a free lock. -/
theorem write (h : Owned l W R) (hl : l = free) (hW : ∀ q, q ≠ p → (W' q ↔ W q))
    (hR : ∀ q, q ≠ p → (R' q ↔ R q)) (hWp : W' p) (hRp : ¬ R' p) : Owned (writing p) W' R' := by
  subst hl
  constructor
  · intro q
    by_cases hq : q = p
    · subst hq; simp [hWp]
    · simp [hW q hq, (h.of_free q).1, Ne.symm hq]
  · intro q
    by_cases hq : q = p
    · subst hq; simp [hRp]
    · simp [hR q hq, (h.of_free q).2]

/-- Party `p` drops the write guard. -/
theorem unwrite (h : Owned l W R) (hp : W p) (hW : ∀ q, q ≠ p → (W' q ↔ W q))
    (hR : ∀ q, q ≠ p → (R' q ↔ R q)) (hWp : ¬ W' p) (hRp : ¬ R' p) : Owned free W' R' := by
  constructor
  · intro q
    by_cases hq : q = p
    · subst hq; simp [hWp]
    · have : ¬ W q := fun hw => hq (h.write_unique hw hp)
      simp [hW q hq, this]
  · intro q
    by_cases hq : q = p
    · subst hq; simp [hRp]
    · have : ¬ R q := h.write_not_read hp
      simp [hR q hq, this]

/-- Party `p` takes a read guard of a lock without a writer. -/
theorem read [DecidableEq P] {ps : Finset P} (h : Owned l W R) (hl : l = reading ps)
    (hW : ∀ q, q ≠ p → (W' q ↔ W q)) (hR : ∀ q, q ≠ p → (R' q ↔ R q)) (hWp : ¬ W' p) (hRp : R' p) :
    Owned (l.read p) W' R' := by
  subst hl
  have hps : ∀ q, q ∈ ps ↔ R q := h.read_iff
  constructor
  · intro q
    by_cases hq : q = p
    · subst hq; simp [RwLock.read, hWp]
    · rw [hW q hq, ← h.write_iff q]
      simp [RwLock.read]
  · intro q
    by_cases hq : q = p
    · subst hq; simp [RwLock.read, hRp]
    · simp [RwLock.read, hq, hR q hq, hps q]

/-- Party `p` drops its read guard. -/
theorem unread [DecidableEq P] (h : Owned l W R) (hp : R p) (hW : ∀ q, q ≠ p → (W' q ↔ W q))
    (hR : ∀ q, q ≠ p → (R' q ↔ R q)) (hWp : ¬ W' p) (hRp : ¬ R' p) : Owned (l.unread p) W' R' := by
  cases l with
  | writing r => exact absurd ((h.read_iff p).mpr hp) (by simp)
  | reading ps =>
      have hps : ∀ q, q ∈ ps ↔ R q := h.read_iff
      constructor
      · intro q
        by_cases hq : q = p
        · subst hq; simp [RwLock.unread, hWp]
        · rw [hW q hq, ← h.write_iff q]
          simp [RwLock.unread]
      · intro q
        by_cases hq : q = p
        · subst hq; simp [RwLock.unread, hRp]
        · simp [RwLock.unread, hq, hR q hq, hps q]

end Owned

end RwLock

/-! ### Lock orders -/

section lockOrder

variable {P Λ : Type*} (holds waits : P → Λ → Prop)

/-- A non-empty set of parties, each waiting for a lock that is held, whose holders are all in
the set. -/
structure Deadlocked (D : Set P) : Prop where
  nonempty : D.Nonempty
  blocked : ∀ p ∈ D, ∃ l, waits p l ∧ (∃ q, holds q l) ∧ ∀ q, holds q l → q ∈ D

variable {holds waits}

/-- **Lock order**: if whoever holds a lock waits only for locks of higher rank, and the ranks
are bounded, no set of parties is deadlocked. -/
theorem no_deadlock (rank : Λ → ℕ) (bound : ℕ) (hbound : ∀ l, rank l ≤ bound)
    (order : ∀ p l l', holds p l → waits p l' → rank l < rank l') (D : Set P) :
    ¬ Deadlocked holds waits D := by
  intro hD
  -- along the set one walks to a lock of ever higher rank
  have walk : ∀ n, ∃ p ∈ D, ∃ l, waits p l ∧ (∃ q, holds q l) ∧ (∀ q, holds q l → q ∈ D) ∧
      n ≤ rank l := by
    intro n
    induction n with
    | zero =>
        obtain ⟨p, hp⟩ := hD.nonempty
        obtain ⟨l, hw, hh, hin⟩ := hD.blocked p hp
        exact ⟨p, hp, l, hw, hh, hin, Nat.zero_le _⟩
    | succ n ih =>
        obtain ⟨p, hp, l, hw, ⟨q, hq⟩, hin, hn⟩ := ih
        obtain ⟨l', hw', hh', hin'⟩ := hD.blocked q (hin q hq)
        exact ⟨q, hin q hq, l', hw', hh', hin', by have := order q l l' hq hw'; omega⟩
  obtain ⟨_, _, l, _, _, _, hl⟩ := walk (bound + 1)
  have := hbound l
  omega

end lockOrder

end CorustHackathon
