import CorustHackathon.HashSets
import CorustHackathon.TaskManager.State

/-! # `ongoing` as a hash set

`ongoing` is a `HashSet<TaskContext<K>>`, and the manager looks contexts up and removes them by
their keys.  `TaskContext<K>` has its `Hash`, `Eq`, `Ord` and `Borrow<K>` written by hand, each by
its key; they are what makes this right (`Context.borrows`).  The earlier modules take the set for a
finite map from keys to tokens; `ongoing_refines` is why they may. -/

namespace CorustHackathon.TaskManager

/-- `TaskContext<K>`; the token is named by its creator. -/
structure Context (K : Type) where
  key : K
  cancel : ℕ
deriving DecidableEq, Repr

namespace Context

variable {W K : Type}

/-- `impl Borrow<K> for TaskContext<K>` -/
def borrow (c : Context K) : K := c.key

/-- `impl PartialEq`, `Eq`, `PartialOrd`, `Ord` and `Hash for TaskContext<K>` -/
instance [Key W K] : Key W (Context K) where
  beq a b := a.key == b.key
  compare a b := compare a.key b.key
  partialCmp a b := some (compare a.key b.key)
  hash c := Key.hash c.key
  eq_swap := Std.OrientedCmp.eq_swap (α := K)
  isLE_trans := Std.TransCmp.isLE_trans (α := K)
  compare_eq_iff_beq := Std.LawfulBEqCmp.compare_eq_iff_beq (α := K)
  partialCmp_eq _ _ := rfl
  hash_eq _ _ h := Key.hash_eq _ _ h

/-- **The contract of `Borrow`**: a context and its key behave the same. -/
theorem borrows [Key W K] : Borrows (W := W) (borrow (K := K)) :=
  .of_compare (fun _ _ => rfl) fun _ => rfl

end Context

/-- `usize` as a key: it writes itself into a hasher by one call of `write_usize`. -/
local instance usizeKey : Key ℕ ℕ where
  partialCmp a b := some (compare a b)
  hash k := [k]
  partialCmp_eq _ _ := rfl
  hash_eq a b h := by rw [beq_iff_eq.mp h]

/-- An operation on `HashSet<TaskContext<usize>>`. -/
abbrev ContextOp := SetOp (Context ℕ) ℕ

/-- What the operation is for the finite map. -/
def ContextSet.apply (s : ContextSet) : ContextOp → ContextSet
  | .insert c => s.insertContext ⟨c.key, c.cancel⟩
  | .remove k => s.erase k

/-- The finite map after some operations. -/
def ContextSet.runOps (ops : List (HashTable ℕ × ContextOp)) : ContextSet :=
  ops.foldl (fun s op => s.apply op.2) ∅

/-- The finite map computes the function that the set is for. -/
theorem lookup_runOps (ops : List (HashTable ℕ × ContextOp)) (k : ℕ) :
    HashTable.lookup Context.borrow ops k =
      ((ContextSet.runOps ops).lookup k).map fun tok => ⟨k, tok⟩ := by
  induction ops using List.reverseRecOn generalizing k with
  | nil => rfl
  | append_singleton ops op ih =>
      unfold HashTable.lookup ContextSet.runOps at ih ⊢
      rw [List.foldl_append, List.foldl_append, List.foldl_cons, List.foldl_nil, List.foldl_cons,
        List.foldl_nil]
      cases op.2 with
      | insert c =>
          rw [ContextSet.apply, lookup_insertContext, SetOp.spec, ih]
          by_cases hk : k = c.key
          · subst hk
            cases Finmap.lookup c.key _ <;> simp [Context.borrow]
          · simp [Context.borrow, hk]
      | remove k' =>
          rw [ContextSet.apply, lookup_erase_apply, SetOp.spec, ih]
          by_cases hk : k = k' <;> simp [hk]

/-- **`ongoing` is the finite map that the manager takes it for**: after any operations, on tables
of any layout and with any hasher, `get(k)` finds the context that the map has at `k`, and `iter`
goes through a context with the token `tok` if the map has it. -/
theorem ongoing_refines (ops : List (HashTable ℕ × ContextOp)) :
    (∀ (t : HashTable ℕ) k, t.get Context.borrow (HashTable.runOps Context.borrow ops) k =
      ((ContextSet.runOps ops).lookup k).map fun tok => ⟨k, tok⟩) ∧
    ∀ tok, (∃ c ∈ HashTable.runOps Context.borrow ops, c.cancel = tok) ↔
      (ContextSet.runOps ops).HasToken tok := by
  constructor
  · intro t k
    rw [t.get_runOps Context.borrows.hashBorrows, lookup_runOps]
  · intro tok
    rw [hasToken_iff]
    constructor
    · rintro ⟨c, hc, rfl⟩
      rw [HashTable.mem_runOps Context.borrows.hashBorrows, lookup_runOps,
        Option.map_eq_some_iff] at hc
      obtain ⟨tok, hl, he⟩ := hc
      refine ⟨c.borrow, ?_⟩
      rw [hl, ← he]
    · rintro ⟨k, hl⟩
      refine ⟨⟨k, tok⟩, ?_, rfl⟩
      rw [HashTable.mem_runOps Context.borrows.hashBorrows, lookup_runOps]
      have hk : (⟨k, tok⟩ : Context ℕ).borrow = k := rfl
      rw [hk, hl]
      rfl

end CorustHackathon.TaskManager
