import CorustHackathon.BorrowKey.Contract
import CorustHackathon.HashSets

/-! # Hash sets of derived structs

What the macro is for: a `HashSet` of the structs is a map whose keys are in its values.  Over any
insertions, removals and lookups, this is so exactly if the deref from the type of the key field to
the type that it is borrowed as keeps equality and the hash (or there are no values).  The contract
of `Borrow` asks for the order too, which a hash set has no use for. -/

namespace CorustHackathon.BorrowKey

variable {W S U T : Type} [Key W U] [Key W T] {key : S → U} {deref : U → T}

/-- The struct behaves as its key field does. -/
theorem hashBorrows_of_deref (h : HashBorrows (W := W) deref) (key : S → U) :
    letI : Key W S := derived key
    HashBorrows (W := W) (borrow key deref) :=
  letI : Key W S := derived key
  ⟨fun x y => h.beq_eq (key x) (key y), fun x => h.hash_eq (key x)⟩

theorem deref_of_hashBorrows (hkey : Function.Surjective key)
    (h : letI : Key W S := derived key; HashBorrows (W := W) (borrow key deref)) :
    HashBorrows (W := W) deref := by
  let _ : Key W S := derived key
  constructor
  · intro u v
    obtain ⟨x, rfl⟩ := hkey u
    obtain ⟨y, rfl⟩ := hkey v
    exact h.beq_eq x y
  · intro u
    obtain ⟨x, rfl⟩ := hkey u
    exact h.hash_eq x

end CorustHackathon.BorrowKey
