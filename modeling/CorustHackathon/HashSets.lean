import Mathlib.Data.List.Pairwise
import CorustHackathon.Keys

/-! # Hash sets that are asked by borrowed keys

The operations of a hash set whose elements are inserted as they are and looked up and removed by
what they are borrowed as.  Every operation may find the table laid out in another way, and
hashed by another hasher; what is asked of them is in `HashTable`.

`SetOp.spec` is what a set is for: operation by operation, a partial function from borrowed keys to
elements.  `get_runOps` says that lookups compute this function for every layout, if the elements
and what they are borrowed as are compared and hashed the same (`HashBorrows`), and `mem_runOps`
that the elements are its values.  Without it they do not (`isMap_iff`). -/

namespace CorustHackathon

variable {W S T : Type}

/-- An operation that changes a hash set. -/
inductive SetOp (S T : Type) where
  | insert (x : S)
  | remove (q : T)

/-- What an operation does to the function from borrowed keys to elements. -/
def SetOp.spec [Key W T] (borrow : S → T) (f : T → Option S) : SetOp S T → T → Option S
  | insert x, q => if (q == borrow x) = true ∧ f q = none then some x else f q
  | remove q', q => if (q == q') = true then none else f q

/-- A value and what it is borrowed as are compared and hashed the same; of `Borrows`, this is what
a hash set uses. -/
structure HashBorrows [Key W S] [Key W T] (borrow : S → T) : Prop where
  beq_eq : ∀ x y, (borrow x == borrow y) = (x == y)
  hash_eq : ∀ x, Key.hash (borrow x) = (Key.hash x : List W)

theorem Borrows.hashBorrows [Key W S] [Key W T] {borrow : S → T} (hb : Borrows (W := W) borrow) :
    HashBorrows (W := W) borrow :=
  ⟨hb.beq_eq, hb.hash_eq⟩

/-- An element that is taken out by the first of its kind is the only one of its kind. -/
theorem mem_eraseP_iff {p : S → Bool} {xs : List S}
    (h : xs.Pairwise fun x y => p x = true → p y = false) (y : S) :
    y ∈ xs.eraseP p ↔ y ∈ xs ∧ p y = false := by
  induction xs with
  | nil => simp
  | cons x xs ih =>
      obtain ⟨hx, hxs⟩ := List.pairwise_cons.mp h
      by_cases hp : p x = true
      · rw [List.eraseP_cons_of_pos hp, List.mem_cons]
        constructor
        · exact fun hy => ⟨.inr hy, hx y hy hp⟩
        · rintro ⟨rfl | hy, hn⟩
          · rw [hp] at hn
            cases hn
          · exact hy
      · rw [List.eraseP_cons_of_neg hp, List.mem_cons, ih hxs, List.mem_cons]
        constructor
        · rintro (rfl | ⟨hy, hn⟩)
          · exact ⟨.inl rfl, by simpa using hp⟩
          · exact ⟨.inr hy, hn⟩
        · rintro ⟨rfl | hy, hn⟩
          · exact .inl rfl
          · exact .inr ⟨hy, hn⟩

namespace HashTable

variable [Key W S] [Key W T] (t : HashTable W) (borrow : S → T)

/-- `HashSet::remove`: the element that a lookup finds is taken out. -/
def remove (xs : List S) (q : T) : List S :=
  xs.eraseP fun e => t.meets (xs.map t.hashOne) (t.hashOne e) (t.hashOne q) && q == borrow e

def apply (xs : List S) : SetOp S T → List S
  | .insert x => t.insert xs x
  | .remove q => t.remove borrow xs q

/-- The elements after some operations on an empty set, each on its own table. -/
def runOps (ops : List (HashTable W × SetOp S T)) : List S :=
  ops.foldl (fun xs op => op.1.apply borrow xs op.2) []

/-- What a set is for, after some operations. -/
def lookup (ops : List (HashTable W × SetOp S T)) : T → Option S :=
  ops.foldl (fun f op => op.2.spec (W := W) borrow f) fun _ => none

/-- No two elements are equal. -/
def Distinct (xs : List S) : Prop := xs.Pairwise fun x y => (x == y) = false

variable {borrow} {xs : List S}

omit [Key W T] in
theorem Distinct.eq (hd : Distinct (W := W) xs) {x y : S} (hx : x ∈ xs) (hy : y ∈ xs)
    (h : (x == y) = true) : x = y := by
  have hsymm : Std.Symm fun x y : S => (x == y) = false :=
    ⟨fun x y h => by rw [BEq.comm]; exact h⟩
  by_contra hne
  have hxy := List.Pairwise.forall hd hx hy hne
  rw [hxy] at h
  cases h

omit [Key W T] in
/-- Nothing is found where nothing is equal, and only there. -/
theorem not_beq_of_find (t : HashTable W) {x : S} (hf : t.find xs (t.hashOne x) (x == ·) = none)
    {y : S} (hy : y ∈ xs) : (x == y) = false := by
  rw [← Bool.not_eq_true]
  intro hxy
  have hh : t.hashOne y = t.hashOne x := by rw [hashOne, hashOne, Key.hash_eq _ _ hxy]
  have := find_isSome hy hh hxy
  rw [hf] at this
  cases this

/-- What is looked up has the hash of the element that is found. -/
theorem hashOne_eq (hb : HashBorrows (W := W) borrow) {q : T} {x : S}
    (hq : (q == borrow x) = true) : t.hashOne x = t.hashOne q := by
  rw [hashOne, hashOne, ← hb.hash_eq, Key.hash_eq _ _ hq]

theorem beq_of_beq (hb : HashBorrows (W := W) borrow) {q : T} {x y : S}
    (hx : (q == borrow x) = true) (hy : (q == borrow y) = true) : (x == y) = true := by
  rw [← hb.beq_eq]
  exact BEq.trans (BEq.symm hx) hy

/-- **Lookup**: in a set without equal elements a lookup finds the element that is asked for. -/
theorem get_eq_some_iff (hb : HashBorrows (W := W) borrow) (hd : Distinct (W := W) xs) (q : T)
    (x : S) : t.get borrow xs q = some x ↔ x ∈ xs ∧ (q == borrow x) = true := by
  constructor
  · exact of_find
  · rintro ⟨hx, hq⟩
    have hfind : (t.get borrow xs q).isSome = true := find_isSome hx (t.hashOne_eq hb hq) hq
    obtain ⟨e, he⟩ := Option.isSome_iff_exists.mp hfind
    obtain ⟨hmem, hqe⟩ := of_find he
    rw [he, hd.eq hmem hx (beq_of_beq hb hqe hq)]

/-! ### One operation -/

omit [Key W T] in
theorem Distinct.insert (hd : Distinct (W := W) xs) (x : S) :
    Distinct (W := W) (t.insert xs x) := by
  unfold HashTable.insert
  cases hf : t.find xs (t.hashOne x) (x == ·) with
  | some e => exact hd
  | none =>
      refine List.pairwise_append.mpr ⟨hd, List.pairwise_singleton _ _, fun y hy z hz => ?_⟩
      rw [List.mem_singleton.mp hz, BEq.comm]
      exact t.not_beq_of_find hf hy

theorem Distinct.apply (hd : Distinct (W := W) xs) (op : SetOp S T) :
    Distinct (W := W) (t.apply borrow xs op) := by
  cases op with
  | insert x => exact hd.insert t x
  | remove q => exact List.Pairwise.sublist List.eraseP_sublist hd

omit [Key W T] in
/-- An insertion adds the element if none is equal to it. -/
theorem mem_insert_iff (x y : S) :
    y ∈ t.insert xs x ↔ y ∈ xs ∨ (y = x ∧ ∀ z ∈ xs, (x == z) = false) := by
  unfold HashTable.insert
  cases hf : t.find xs (t.hashOne x) (x == ·) with
  | some e =>
      obtain ⟨hmem, hxe⟩ := of_find hf
      refine (or_iff_left ?_).symm
      rintro ⟨-, hno⟩
      rw [hno e hmem] at hxe
      cases hxe
  | none =>
      have hno : ∀ z ∈ xs, (x == z) = false := fun z hz => t.not_beq_of_find hf hz
      simp only [Option.isSome_none, Bool.false_eq_true, if_false, List.mem_append,
        List.mem_singleton]
      rw [and_iff_left hno]

/-- A removal takes out the element that is asked for. -/
theorem mem_remove_iff (hb : HashBorrows (W := W) borrow) (hd : Distinct (W := W) xs) (q : T)
    (y : S) : y ∈ t.remove borrow xs q ↔ y ∈ xs ∧ (q == borrow y) = false := by
  have hmeets : ∀ e, (t.meets (xs.map t.hashOne) (t.hashOne e) (t.hashOne q) && q == borrow e) =
      (q == borrow e) := fun e => by
    cases hq : q == borrow e with
    | false => rw [Bool.and_false]
    | true => rw [t.hashOne_eq hb hq, t.meets_self]; rfl
  unfold HashTable.remove
  simp only [hmeets]
  refine mem_eraseP_iff (hd.imp fun {x z} hne hx => ?_) y
  rw [← Bool.not_eq_true]
  intro hz
  rw [beq_of_beq hb hx hz] at hne
  cases hne

/-- **One operation**: the elements stay the values of the function. -/
theorem mem_apply_iff (hb : HashBorrows (W := W) borrow) (hd : Distinct (W := W) xs)
    {f : T → Option S} (hf : ∀ q x, f q = some x ↔ x ∈ xs ∧ (q == borrow x) = true)
    (op : SetOp S T) (q : T) (x : S) :
    op.spec (W := W) borrow f q = some x ↔
      x ∈ t.apply borrow xs op ∧ (q == borrow x) = true := by
  have hnone : ∀ q, f q = none ↔ ∀ z ∈ xs, (q == borrow z) = false := fun q => by
    rw [Option.eq_none_iff_forall_ne_some]
    refine forall_congr' fun z => ?_
    rw [ne_eq, hf, not_and, Bool.not_eq_true]
  cases op with
  | insert y =>
      show (if _ then _ else _) = _ ↔ x ∈ t.insert xs y ∧ _
      rw [t.mem_insert_iff]
      -- `y` is new where no element is borrowed as what is asked for
      have hnew : (q == borrow y) = true → (f q = none ↔ ∀ z ∈ xs, (y == z) = false) := by
        intro hq
        rw [hnone]
        refine forall₂_congr fun z hz => ?_
        rw [← hb.beq_eq, BEq.congr_left hq]
      split_ifs with hc
      · obtain ⟨hq, hfq⟩ := hc
        have hno := (hnew hq).mp hfq
        have hx : x ∈ xs → (q == borrow x) = false := (hnone q).mp hfq x
        constructor
        · rintro ⟨⟩
          exact ⟨.inr ⟨rfl, hno⟩, hq⟩
        · rintro ⟨hx' | ⟨rfl, -⟩, hqx⟩
          · rw [hx hx'] at hqx
            cases hqx
          · rfl
      · rw [hf]
        refine and_congr_left fun hq => ?_
        refine (or_iff_left ?_).symm
        rintro ⟨rfl, hno⟩
        exact hc ⟨hq, (hnew hq).mpr hno⟩
  | remove q' =>
      show (if _ then _ else _) = _ ↔ x ∈ t.remove borrow xs q' ∧ _
      rw [t.mem_remove_iff hb hd]
      split_ifs with hq
      · refine iff_of_false (by simp) ?_
        rintro ⟨⟨-, hne⟩, hqx⟩
        rw [BEq.trans (BEq.symm hq) hqx] at hne
        cases hne
      · rw [hf]
        refine and_congr_left fun hqx => ?_
        refine (and_iff_left ?_).symm
        rw [← Bool.not_eq_true]
        intro hq'
        exact hq (BEq.trans hqx (BEq.symm hq'))

/-! ### Any number of operations -/

theorem runOps_spec (hb : HashBorrows (W := W) borrow) (ops : List (HashTable W × SetOp S T)) :
    Distinct (W := W) (runOps borrow ops) ∧ ∀ q x,
      lookup borrow ops q = some x ↔ x ∈ runOps borrow ops ∧ (q == borrow x) = true := by
  induction ops using List.reverseRecOn with
  | nil => exact ⟨.nil, by simp [lookup, runOps]⟩
  | append_singleton ops op ih =>
      rw [lookup, runOps, List.foldl_append, List.foldl_append]
      exact ⟨ih.1.apply op.1 op.2, op.1.mem_apply_iff hb ih.1 ih.2 op.2⟩

/-- The elements of the set are the values of the function. -/
theorem mem_runOps (hb : HashBorrows (W := W) borrow) (ops : List (HashTable W × SetOp S T))
    (x : S) : x ∈ runOps borrow ops ↔ lookup borrow ops (borrow x) = some x := by
  rw [(runOps_spec hb ops).2, and_iff_left (BEq.refl _)]

/-- **Lookups in a hash set compute the function that the set is for**, whatever its layout. -/
theorem get_runOps (hb : HashBorrows (W := W) borrow) (ops : List (HashTable W × SetOp S T))
    (q : T) : t.get borrow (runOps borrow ops) q = lookup borrow ops q := by
  obtain ⟨hd, hl⟩ := runOps_spec hb ops
  refine Option.ext fun x => ?_
  rw [t.get_eq_some_iff hb hd, hl]

/-! ### What is needed for it -/

variable (W borrow) in
/-- A hash set is the map that it is for, after any operations and whatever its layout. -/
structure IsMap : Prop where
  get : ∀ (ops : List (HashTable W × SetOp S T)) (t : HashTable W) (q : T),
    t.get borrow (runOps borrow ops) q = lookup borrow ops q
  mem : ∀ (ops : List (HashTable W × SetOp S T)) (x : S),
    x ∈ runOps borrow ops ↔ lookup borrow ops (borrow x) = some x

variable (W) in
/-- A table where a lookup comes to every element. -/
def flat : HashTable W where
  State := Unit
  init := ()
  write _ _ := ()
  finish _ := 0
  meets _ _ _ := true
  meets_self _ _ := rfl

open Classical in
/-- A table where a lookup comes to the elements with the hash that is looked up, and a hasher that
tells what is written as `ws` from the rest. -/
noncomputable def telling (ws : List W) : HashTable W where
  State := List W
  init := []
  write ws' w := ws' ++ [w]
  finish ws' := if ws' = ws then 0 else 1
  meets _ h h' := h == h'
  meets_self _ _ := beq_self_eq_true _

open Classical in
theorem telling_eq_iff (ws ws' : List W) :
    (telling ws).finish (ws'.foldl (telling ws).write (telling ws).init) = 0 ↔ ws' = ws := by
  have hfold : ∀ xs : List W, ws'.foldl (fun ws' w => ws' ++ [w]) xs = xs ++ ws' := by
    induction ws' with
    | nil => simp
    | cons w ws' ih => simp [ih]
  show (if ws'.foldl (fun ws' w => ws' ++ [w]) [] = ws then 0 else 1 : UInt64) = 0 ↔ _
  rw [hfold, List.nil_append]
  by_cases h : ws' = ws <;> simp [h]

/-- The hasher does not tell an element from what it is borrowed as. -/
theorem IsMap.hash_eq (h : IsMap W borrow) (x : S) :
    Key.hash (borrow x) = (Key.hash x : List W) := by
  have hx : (telling (Key.hash x : List W)).hashOne x = 0 := (telling_eq_iff _ _).mpr rfl
  have hget := h.get [(flat W, .insert x)] (telling (Key.hash x)) (borrow x)
  have hlookup : lookup borrow [(flat W, SetOp.insert x)] (borrow x) = some x := by
    simp [lookup, SetOp.spec]
  rw [hlookup] at hget
  have hrun : runOps borrow [(flat W, SetOp.insert x)] = [x] := rfl
  rw [hrun] at hget
  have hmeets := List.find?_some hget
  rw [Bool.and_eq_true] at hmeets
  have : (telling (Key.hash x : List W)).hashOne x =
      (telling (Key.hash x : List W)).hashOne (borrow x) := eq_of_beq hmeets.1
  exact (telling_eq_iff _ _).mp (this.symm.trans hx)

theorem flat_get (xs : List S) (q : T) : (flat W).get borrow xs q = xs.find? (q == borrow ·) := by
  simp [get, find, flat]

/-- Two elements that are borrowed as one: the first is removed, and the second is still found. -/
theorem IsMap.beq_of_borrow (h : IsMap W borrow) {x y : S}
    (hxy : (borrow x == borrow y) = true) : (x == y) = true := by
  by_contra hne
  rw [Bool.not_eq_true] at hne
  have hyx : (y == x) = false := by rw [BEq.comm]; exact hne
  have hget := h.get [(flat W, .insert x), (flat W, .insert y), (flat W, .remove (borrow x))]
    (flat W) (borrow x)
  have hrun : runOps borrow [(flat W, .insert x), (flat W, .insert y),
      (flat W, .remove (borrow x))] = [y] := by
    simp [runOps, apply, insert, remove, find, flat, hyx]
  have hlookup : lookup borrow [(flat W, .insert x), (flat W, .insert y),
      (flat W, .remove (borrow x))] (borrow x) = none := by
    simp [lookup, SetOp.spec]
  rw [hrun, hlookup, flat_get] at hget
  simp [hxy] at hget

/-- One element that is borrowed as two: the second is not inserted, and it is not found. -/
theorem IsMap.borrow_of_beq (h : IsMap W borrow) {x y : S} (hxy : (x == y) = true) :
    (borrow x == borrow y) = true := by
  by_contra hne
  rw [Bool.not_eq_true] at hne
  have hyx : (borrow y == borrow x) = false := by rw [BEq.comm]; exact hne
  have hyx' : (y == x) = true := BEq.symm hxy
  have hget := h.get [(flat W, .insert x), (flat W, .insert y)] (flat W) (borrow y)
  have hrun : runOps borrow [(flat W, SetOp.insert x), (flat W, .insert y)] = [x] := by
    simp [runOps, apply, insert, find, flat, hyx']
  have hlookup : lookup borrow [(flat W, SetOp.insert x), (flat W, .insert y)] (borrow y) =
      some y := by
    simp [lookup, SetOp.spec, hyx]
  rw [hrun, hlookup, flat_get] at hget
  simp [hyx] at hget

theorem IsMap.hashBorrows (h : IsMap W borrow) : HashBorrows (W := W) borrow :=
  ⟨fun _ _ => Bool.eq_iff_iff.mpr ⟨h.beq_of_borrow, h.borrow_of_beq⟩, h.hash_eq⟩

/-- **A hash set is a map from borrowed keys** exactly if its elements are compared and hashed as
what they are borrowed as. -/
theorem isMap_iff : IsMap W borrow ↔ HashBorrows (W := W) borrow :=
  ⟨IsMap.hashBorrows, fun hb =>
    ⟨fun ops t q => t.get_runOps hb ops q, fun ops x => mem_runOps hb ops x⟩⟩

end HashTable

end CorustHackathon
