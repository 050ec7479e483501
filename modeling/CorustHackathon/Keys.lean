import Mathlib.Data.List.Induction
import Mathlib.Data.List.Basic

/-! # Keys of hash sets, and lookups by a borrowed key

`Key W α` are the comparison and hash functions of a type whose values can be keys, with their
laws; `W` are the calls by which a value writes itself into a hasher.  `HashTable W` is a hash
table with its hasher.  How it is laid out is not said but for one thing: a lookup comes to every
element with the same hash (`meets_self`); it may come to others.

`Borrows borrow` says that the functions of a type and of what it is borrowed as agree.  Then, and
this is what it is for, a table can be asked by borrowed keys (`Borrows.get_isSome_iff`). -/

namespace CorustHackathon

/-- `Eq`, `Ord`, `PartialOrd` and `Hash`, and their laws. -/
class Key (W : Type) (α : Type) extends BEq α, Ord α, Std.TransOrd α, Std.LawfulBEqOrd α where
  partialCmp : α → α → Option Ordering
  hash : α → List W
  partialCmp_eq : ∀ a b, partialCmp a b = some (compare a b)
  hash_eq : ∀ a b, (a == b) = true → hash a = hash b

variable {W S T : Type}

/-- The functions of `β`, at the values of `f`. -/
@[reducible] def Key.comap [Key W T] (f : S → T) : Key W S where
  beq a b := f a == f b
  compare a b := compare (f a) (f b)
  partialCmp a b := Key.partialCmp W (f a) (f b)
  hash a := Key.hash (f a)
  eq_swap := Std.OrientedCmp.eq_swap (α := T)
  isLE_trans := Std.TransCmp.isLE_trans (α := T)
  compare_eq_iff_beq := Std.LawfulBEqCmp.compare_eq_iff_beq (α := T)
  partialCmp_eq _ _ := Key.partialCmp_eq _ _
  hash_eq _ _ h := Key.hash_eq _ _ h

/-! ### Hash tables -/

/-- A hash table: its hasher, and which elements a lookup comes to, from the hashes in the table,
the hash of the element and the hash that is looked up. -/
structure HashTable (W : Type) where
  State : Type
  init : State
  write : State → W → State
  finish : State → UInt64
  meets : List UInt64 → UInt64 → UInt64 → Bool
  meets_self : ∀ hs h, meets hs h h = true

namespace HashTable

variable (t : HashTable W) [Key W S] [Key W T] (borrow : S → T)

def hashOne (x : S) : UInt64 := t.finish ((Key.hash x).foldl t.write t.init)

/-- The first of `xs` that a lookup of the hash `h` comes to and that meets `p`. -/
def find (xs : List S) (h : UInt64) (p : S → Bool) : Option S :=
  xs.find? fun e => t.meets (xs.map t.hashOne) (t.hashOne e) h && p e

/-- `HashSet::insert`: an element that equals `x` stays in its place. -/
def insert (xs : List S) (x : S) : List S :=
  if (t.find xs (t.hashOne x) (x == ·)).isSome then xs else xs ++ [x]

def insertAll (xs : List S) : List S := xs.foldl t.insert []

/-- `HashSet::get` -/
def get (xs : List S) (q : T) : Option S := t.find xs (t.hashOne q) (q == borrow ·)

variable {t} {xs : List S} {x : S} {h : UInt64} {p : S → Bool}

theorem of_find (hf : t.find xs h p = some x) : x ∈ xs ∧ p x = true := by
  have hp := List.find?_some hf
  rw [Bool.and_eq_true] at hp
  exact ⟨List.mem_of_find?_eq_some hf, hp.2⟩

/-- An element is found by its own hash. -/
theorem find_isSome (hx : x ∈ xs) (hh : t.hashOne x = h) (hp : p x = true) :
    (t.find xs h p).isSome = true := by
  rw [find, List.find?_isSome]
  exact ⟨x, hx, by rw [hh, t.meets_self, hp]; rfl⟩

@[simp] theorem insertAll_snoc (xs : List S) (x : S) :
    t.insertAll (xs ++ [x]) = t.insert (t.insertAll xs) x := by
  simp [insertAll]

/-- An insertion adds the element, or there is an equal one. -/
theorem insert_cases (t : HashTable W) (xs : List S) (x : S) :
    (t.insert xs x = xs ∧ ∃ e ∈ xs, (x == e) = true) ∨ t.insert xs x = xs ++ [x] := by
  cases hf : t.find xs (t.hashOne x) (x == ·) with
  | none => exact .inr (by rw [insert, hf]; rfl)
  | some e => exact .inl ⟨by rw [insert, hf]; rfl, e, of_find hf⟩

theorem mem_of_mem_insertAll (hx : x ∈ t.insertAll xs) : x ∈ xs := by
  induction xs using List.reverseRecOn with
  | nil => exact hx
  | append_singleton xs y ih =>
      rw [insertAll_snoc] at hx
      rw [List.mem_append]
      rcases t.insert_cases (t.insertAll xs) y with ⟨he, -⟩ | he
      · rw [he] at hx
        exact .inl (ih hx)
      · rw [he, List.mem_append] at hx
        exact hx.imp_left ih

/-- What was inserted is in the table, up to equality. -/
theorem exists_mem_insertAll (t : HashTable W) (hx : x ∈ xs) :
    ∃ e ∈ t.insertAll xs, (x == e) = true := by
  induction xs using List.reverseRecOn with
  | nil => cases hx
  | append_singleton xs y ih =>
      rw [insertAll_snoc]
      rw [List.mem_append, List.mem_singleton] at hx
      rcases t.insert_cases (t.insertAll xs) y with ⟨he, e, hmem, heq⟩ | he
      · rw [he]
        rcases hx with hx | rfl
        · exact ih hx
        · exact ⟨e, hmem, heq⟩
      · rw [he]
        rcases hx with hx | rfl
        · obtain ⟨e, hmem, heq⟩ := ih hx
          exact ⟨e, List.mem_append_left _ hmem, heq⟩
        · exact ⟨x, List.mem_append_right _ (List.mem_singleton_self _), BEq.refl x⟩

end HashTable

/-! ### Borrowed keys -/

/-- A value and what it is borrowed as behave the same. -/
structure Borrows [Key W S] [Key W T] (borrow : S → T) : Prop where
  beq_eq : ∀ x y, (borrow x == borrow y) = (x == y)
  compare_eq : ∀ x y, compare (borrow x) (borrow y) = compare x y
  partialCmp_eq : ∀ x y, Key.partialCmp W (borrow x) (borrow y) = Key.partialCmp W x y
  hash_eq : ∀ x, Key.hash (borrow x) = (Key.hash x : List W)

namespace Borrows

variable [Key W S] [Key W T] {borrow : S → T}

/-- Order and hash determine the rest. -/
theorem of_compare (hc : ∀ x y, compare (borrow x) (borrow y) = compare x y)
    (hh : ∀ x, Key.hash (borrow x) = (Key.hash x : List W)) : Borrows (W := W) borrow where
  beq_eq x y :=
    calc
      (borrow x == borrow y) = (compare (borrow x) (borrow y) == .eq) :=
        Std.compare_beq_eq_beq.symm
      _ = (compare x y == .eq) := by rw [hc]
      _ = (x == y) := Std.compare_beq_eq_beq
  compare_eq := hc
  partialCmp_eq x y := by rw [Key.partialCmp_eq, Key.partialCmp_eq, hc]
  hash_eq := hh

/-- **Lookups by a borrowed key**: they find an element if one that is borrowed as this key was
inserted, and only then. -/
theorem get_isSome_iff (hb : Borrows (W := W) borrow) (t : HashTable W) (xs : List S) (q : T) :
    (t.get borrow (t.insertAll xs) q).isSome = true ↔ ∃ x ∈ xs, (q == borrow x) = true := by
  constructor
  · intro h
    obtain ⟨e, he⟩ := Option.isSome_iff_exists.mp h
    obtain ⟨hmem, hq⟩ := HashTable.of_find he
    exact ⟨e, HashTable.mem_of_mem_insertAll hmem, hq⟩
  · rintro ⟨x, hx, hq⟩
    obtain ⟨e, hmem, hxe⟩ := t.exists_mem_insertAll hx
    have hqe : (q == borrow e) = true :=
      BEq.trans hq (by rw [hb.beq_eq]; exact hxe)
    refine HashTable.find_isSome hmem ?_ hqe
    rw [HashTable.hashOne, HashTable.hashOne, ← hb.hash_eq, Key.hash_eq _ _ hqe]

end Borrows

end CorustHackathon
