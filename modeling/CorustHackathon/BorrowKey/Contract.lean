import CorustHackathon.BorrowKey.Accepts
import CorustHackathon.Keys
import Mathlib.Logic.IsEmpty.Basic

/-! # The impls that `BorrowKey` emits, and the contract of `Borrow`

The emitted impls read one field of type `U`: `Hash`, `Eq` and `Ord` use those of `U`, and
`Borrow` hands out `&U` where `&T` is expected, which is where the compiler derefs.  `compile` takes
what the macro has emitted to the functions that the struct gets from it.  They obey the contract of
`Borrow` where this deref keeps the order and the hash (`borrow_contract_iff`); nothing in the macro
asks for it. -/

namespace CorustHackathon.BorrowKey

/-! ### The bodies of the impls -/

section bodies
variable {W S U T : Type} (key : S → U) (deref : U → T)

/-- `&self.#key_ident` -/
def borrow (self : S) : T := deref (key self)

/-- `self.#key_ident.hash(state)` -/
def hash [Key W U] (self : S) : List W := Key.hash (key self)

/-- `self.#key_ident == other.#key_ident` -/
def eq [BEq U] (self other : S) : Bool := key self == key other

/-- `self.#key_ident.cmp(&other.#key_ident)` -/
def cmp [Ord U] (self other : S) : Ordering := compare (key self) (key other)

/-- `Some(self.cmp(other))` -/
def partialCmp [Ord U] (self other : S) : Option Ordering := some (cmp key self other)

/-- The impls for the struct are lawful as those of its field are. -/
@[reducible] def derived [Key W U] : Key W S where
  beq := eq key
  compare := cmp key
  partialCmp := partialCmp key
  hash := hash key
  eq_swap := (Key.comap (W := W) key).eq_swap
  isLE_trans := (Key.comap (W := W) key).isLE_trans
  compare_eq_iff_beq := (Key.comap (W := W) key).compare_eq_iff_beq
  partialCmp_eq _ _ := rfl
  hash_eq _ _ h := Key.hash_eq _ _ h

end bodies

/-! ### What the output means -/

/-- The functions that a struct gets from its impls. -/
structure Impls (W S T : Type) where
  borrow : S → T
  hash : S → List W
  eq : S → S → Bool
  partialCmp : S → S → Option Ordering
  cmp : S → S → Ordering

section compile
variable {Tok Ty W S U T : Type}

/-- The functions of a struct that is borrowed by its field `key`. -/
def Impls.of [Key W U] (key : S → U) (deref : U → T) : Impls W S T where
  borrow := BorrowKey.borrow key deref
  hash := BorrowKey.hash key
  eq := BorrowKey.eq key
  partialCmp := BorrowKey.partialCmp key
  cmp := BorrowKey.cmp key

/-- The impl of a trait. -/
def implOf (out : List (Impl Tok Ty)) (t : Trait) : Option (ImplBody Ty) :=
  (out.map Impl.body).find? (·.trait == t)

/-- `self.name`, for the field that the impl of a trait reads. -/
def fieldOf (field : Ident → Option (S → U)) (out : List (Impl Tok Ty)) (t : Trait) :
    Option (S → U) := do
  let body ← implOf out t
  let name ← body.reads
  field name

/-- The impls in `out` for a struct with the fields `field`; the compiler wants all of them, and
finds every field that they read. -/
def compile [Key W U] (field : Ident → Option (S → U)) (deref : U → T)
    (out : List (Impl Tok Ty)) : Option (Impls W S T) := do
  let borrowed ← fieldOf field out .borrow
  let hashed ← fieldOf field out .hash
  let equated ← fieldOf field out .partialEq
  let compared ← fieldOf field out .ord
  -- no functions in `Eq`, and `partial_cmp` is `Some(self.cmp(other))`
  let _ ← implOf out .eq
  let _ ← implOf out .partialOrd
  return {
    borrow := borrow borrowed deref
    hash := hash hashed
    eq := eq equated
    partialCmp := partialCmp compared
    cmp := cmp compared }

/-- **What the macro emits**, in a struct where `self.k` is `key`, gives it the functions above. -/
theorem compile_of_uses [Key W U] {input : DeriveInput Tok Ty} {k : Ident} {ty : Ty}
    {out : List (Impl Tok Ty)} {field : Ident → Option (S → U)} {key : S → U}
    (h : Uses input k ty out) (hk : field k = some key) (deref : U → T) :
    compile field deref out = some (Impls.of (W := W) key deref) := by
  obtain rfl := uses_iff.mp h
  have hread : ∀ t : Trait, (t.body ty k).reads = some k →
      implOf (expand input k ty) t = some (t.body ty k) →
      fieldOf field (expand input k ty) t = some key := fun t hr ht => by
    simp only [fieldOf, ht, hr, Option.bind_eq_bind, Option.bind_some, hk]
  simp only [compile, hread .borrow rfl rfl, hread .hash rfl rfl, hread .partialEq rfl rfl,
    hread .ord rfl rfl]
  rfl

end compile

/-! ### The contract -/

section contract
variable {S U T : Type} (W : Type) [Key W U] [Key W T]

/-- The functions by which a type can be a key are those of its impls. -/
structure Impls.Are {W : Type} (I : Impls W S T) [Key W S] : Prop where
  eq : ∀ x y : S, (x == y) = I.eq x y
  cmp : ∀ x y : S, compare x y = I.cmp x y
  hash : ∀ x : S, Key.hash x = I.hash x

/-- The impls agree with those of the borrowed key, and a `HashSet` of the structs can be asked by
it. -/
structure Contract (I : Impls W S T) : Prop where
  eq_iff : ∀ x y, I.eq x y = true ↔ (I.borrow x == I.borrow y) = true
  cmp_eq : ∀ x y, I.cmp x y = compare (I.borrow x) (I.borrow y)
  partialCmp_eq : ∀ x y, I.partialCmp x y = Key.partialCmp W (I.borrow x) (I.borrow y)
  hash_eq : ∀ x, I.hash x = Key.hash (I.borrow x)
  lookup : ∀ [Key W S], I.Are → ∀ (t : HashTable W) (xs : List S) (q : T),
    (t.get I.borrow (t.insertAll xs) q).isSome = true ↔ ∃ x ∈ xs, (q == I.borrow x) = true

/-- The deref keeps the order and the hash. -/
structure Preserves (deref : U → T) : Prop where
  compare_eq : ∀ u v, compare (deref u) (deref v) = compare u v
  hash_eq : ∀ u, Key.hash (deref u) = (Key.hash u : List W)

variable {W}

theorem contract_of_compare {key : S → U} {deref : U → T}
    (hc : ∀ x y, compare (borrow key deref x) (borrow key deref y) = cmp key x y)
    (hh : ∀ x, Key.hash (borrow key deref x) = (hash key x : List W)) :
    Contract W (.of key deref) := by
  have lookup : ∀ [Key W S], (Impls.of (W := W) key deref).Are →
      Borrows (W := W) (borrow key deref) := fun hA =>
    .of_compare (fun x y => (hc x y).trans (hA.cmp x y).symm)
      fun x => (hh x).trans (hA.hash x).symm
  let _ : Key W S := derived key
  have hb : Borrows (W := W) (borrow key deref) :=
    lookup ⟨fun _ _ => rfl, fun _ _ => rfl, fun _ => rfl⟩
  exact {
    eq_iff := fun x y => iff_of_eq (congrArg (· = true) (hb.beq_eq x y).symm)
    cmp_eq := fun x y => (hc x y).symm
    partialCmp_eq := fun x y => (hb.partialCmp_eq x y).symm
    hash_eq := fun x => (hh x).symm
    lookup := fun hA => (lookup hA).get_isSome_iff }

theorem Preserves.contract {deref : U → T} (hp : Preserves W deref) (key : S → U) :
    Contract W (.of key deref) :=
  contract_of_compare (fun x y => hp.compare_eq (key x) (key y)) fun x => hp.hash_eq (key x)

/-- The contract says nothing where there are no values. -/
theorem contract_of_isEmpty (he : IsEmpty S) (key : S → U) (deref : U → T) :
    Contract W (.of key deref) :=
  contract_of_compare he.elim he.elim

/-- Every value of the field is the key of a struct: then the contract is about all of them. -/
theorem Contract.preserves {key : S → U} {deref : U → T} (hc : Contract W (.of key deref))
    (hkey : Function.Surjective key) : Preserves W deref where
  compare_eq u v := by
    obtain ⟨x, rfl⟩ := hkey u
    obtain ⟨y, rfl⟩ := hkey v
    exact (hc.cmp_eq x y).symm
  hash_eq u := by
    obtain ⟨x, rfl⟩ := hkey u
    exact (hc.hash_eq x).symm

end contract

/-! ### The structs that the macro accepts -/

variable {Tok Ty : Type}

/-- A struct that the macro accepts, its key field, and the type that it is borrowed as. -/
structure Accepted (parse : List Tok → Option Ty) (input : DeriveInput Tok Ty) where
  fields : List (Field Tok Ty)
  keyField : Field Tok Ty
  keyIdent : Ident
  keyType : Ty
  isStruct : input.data = .struct fields
  mem : keyField ∈ fields
  hasKey : keyField.hasKey = true
  named : keyField.ident = some keyIdent
  emits : deriveBorrowKey parse input = .ok (expand input keyIdent keyType)

/-- The values of a struct, with types that stand for the sets `Val`. -/
def Struct (Val : Ty → Type) (fields : List (Field Tok Ty)) : Type := ∀ f ∈ fields, Val f.ty

namespace Accepted

variable {parse : List Tok → Option Ty} {input : DeriveInput Tok Ty}

/-- Whatever is emitted is emitted for such a struct. -/
theorem of_derive {out : List (Impl Tok Ty)} (h : deriveBorrowKey parse input = .ok out) :
    ∃ e : Accepted parse input, out = expand input e.keyIdent e.keyType := by
  obtain ⟨fields, f, a, k, hd, hk, hf, rfl⟩ := derive_ok_iff.mp h
  have hfilter : f ∈ fields.filter Field.hasKey := by
    rw [← firstKeys_map_fst, hk]
    exact List.mem_singleton_self f
  rw [List.mem_filter] at hfilter
  exact ⟨⟨fields, f, k, _, hd, hfilter.1, hfilter.2, hf, h⟩, rfl⟩

variable (e : Accepted parse input) (Val : Ty → Type)

/-- `self.#key_ident` -/
def key (self : Struct Val e.fields) : Val e.keyField.ty := self e.keyField e.mem

/-- `self.name`, if this is the key field: no other field of a struct has its name. -/
def field (name : Ident) : Option (Struct Val e.fields → Val e.keyField.ty) :=
  if e.keyField.ident = some name then some (e.key Val) else none

/-- What the macro emits for the struct uses the field. -/
theorem compile_emits {W T : Type} [Key W (Val e.keyField.ty)] (deref : Val e.keyField.ty → T) :
    ∃ out, deriveBorrowKey parse input = .ok out ∧
      compile (e.field Val) deref out = some (Impls.of (W := W) (e.key Val) deref) :=
  ⟨_, e.emits, compile_of_uses (uses_expand input e.keyIdent e.keyType) (if_pos e.named) deref⟩

/-- A struct can be given any key, if there is one at all. -/
theorem key_surjective (s : Struct Val e.fields) : Function.Surjective (e.key Val) := by
  classical
  intro u
  refine ⟨fun f hf => if h : e.keyField = f then h ▸ u else s f hf, ?_⟩
  exact dif_pos rfl

end Accepted

instance : Key ℕ Char where
  partialCmp a b := some (compare a b)
  hash c := [c.toNat]
  partialCmp_eq _ _ := rfl
  hash_eq a b h := by rw [eq_of_beq h]

structure Caseless where
  char : Char

instance : Key ℕ Caseless := .comap fun c => c.char.toLower

inductive KeyTy where
  | caseless
  | char

def KeyTy.Val : KeyTy → Type
  | caseless => Caseless
  | char => Char

instance : (ty : KeyTy) → Key ℕ ty.Val
  | .caseless => inferInstanceAs (Key ℕ Caseless)
  | .char => inferInstanceAs (Key ℕ Char)

def parseKeyTy : List String → Option KeyTy
  | ["Caseless"] => some .caseless
  | ["char"] => some .char
  | _ => none

def caselessField : Field String KeyTy := ⟨[⟨.list keyPath ["char"]⟩], some "key", .caseless⟩

def caselessKey : Accepted parseKeyTy ⟨"Foo", [], .struct [caselessField]⟩ where
  fields := [caselessField]
  keyField := caselessField
  keyIdent := "key"
  keyType := .char
  isStruct := rfl
  mem := List.mem_singleton_self _
  hasKey := rfl
  named := rfl
  emits := rfl

/-- `Foo { key }` -/
def caselessFoo (c : Char) : Struct KeyTy.Val caselessKey.fields := fun _ hf =>
  (List.mem_singleton.mp hf) ▸ (⟨c⟩ : Caseless)

end CorustHackathon.BorrowKey
