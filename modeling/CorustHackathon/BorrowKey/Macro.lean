import Mathlib.Data.List.Basic

/-! # The derive macro `BorrowKey`

`derive_borrow_key` of `proc_macro_example/src/lib.rs`, from the `DeriveInput` that `syn` has
parsed to the impls that `quote!` writes or the error that is emitted in their place.

The tokens and the types of the source are parameters `Tok` and `Ty`, and so is the parser of
`syn` for a type that makes up a whole token sequence, `parse`.  What the macro does not read of
its input is left out: visibilities, the variants of an enum, the kind of delimiter of a list. -/

namespace CorustHackathon.BorrowKey

variable {Tok Ty : Type}

/-! ### The input -/

abbrev Ident := String

/-- `syn::PathSegment`; the arguments are `None` where nothing follows the name. -/
structure PathSegment (Tok : Type) where
  ident : Ident
  arguments : Option (List Tok)
deriving DecidableEq, Repr

/-- `syn::Path` -/
structure Path (Tok : Type) where
  leadingColon : Bool
  segments : List (PathSegment Tok)
deriving DecidableEq, Repr

/-- `syn::Meta`: `#[key]`, `#[key(tokens)]` or `#[key = value]`. -/
inductive Meta (Tok : Type) where
  | path (path : Path Tok)
  | list (path : Path Tok) (tokens : List Tok)
  | nameValue (path : Path Tok) (value : List Tok)
deriving DecidableEq, Repr

/-- `syn::Attribute` -/
structure Attribute (Tok : Type) where
  metaItem : Meta Tok
deriving DecidableEq, Repr

/-- `syn::Field`; the field of a tuple struct has no name. -/
structure Field (Tok Ty : Type) where
  attrs : List (Attribute Tok)
  ident : Option Ident
  ty : Ty
deriving DecidableEq, Repr

/-- `syn::Data` -/
inductive Data (Tok Ty : Type) where
  | struct (fields : List (Field Tok Ty))
  | enum
  | union
deriving DecidableEq, Repr

/-- `syn::DeriveInput` -/
structure DeriveInput (Tok Ty : Type) where
  ident : Ident
  generics : List Tok
  data : Data Tok Ty
deriving DecidableEq, Repr

/-- `Path::is_ident` -/
def Path.isIdent (p : Path Tok) (name : Ident) : Bool :=
  match p.leadingColon, p.segments with
  | false, [⟨ident, none⟩] => ident == name
  | _, _ => false

/-- `Meta::path` -/
def Meta.toPath : Meta Tok → Path Tok
  | path p | list p _ | nameValue p _ => p

/-- `|a| a.meta.path().is_ident("key")` -/
def Attribute.isKey (a : Attribute Tok) : Bool := a.metaItem.toPath.isIdent "key"

/-- `Attribute::parse_args`: only a list has arguments, and all of its content is parsed. -/
def Attribute.parseArgs (parse : List Tok → Option Ty) (a : Attribute Tok) : Option Ty :=
  match a.metaItem with
  | .list _ tokens => parse tokens
  | .path _ | .nameValue _ _ => none

/-! ### The output -/

/-- What an error points at. -/
inductive Span (Tok Ty : Type) where
  | attr (a : Attribute Tok)
  | field (f : Field Tok Ty)
  | enumToken
  | unionToken
  | ident (i : Ident)
deriving DecidableEq, Repr

/-- `syn::Error`; `to_compile_error` turns it into the only thing that the macro emits. -/
structure Error (Tok Ty : Type) where
  span : Span Tok Ty
  message : String
deriving DecidableEq, Repr

/-- The trait of an emitted impl, and the field that its body reads. -/
inductive ImplBody (Ty : Type) where
  /-- `fn borrow(&self) -> &#key_type { &self.#key_ident }` -/
  | borrow (keyType : Ty) (keyIdent : Ident)
  /-- `self.#key_ident.hash(state)` -/
  | hash (keyIdent : Ident)
  /-- `self.#key_ident == other.#key_ident` -/
  | partialEq (keyIdent : Ident)
  | eq
  /-- `Some(self.cmp(other))` -/
  | partialOrd
  /-- `self.#key_ident.cmp(&other.#key_ident)` -/
  | ord (keyIdent : Ident)
deriving DecidableEq, Repr

/-- `impl #impl_generics … for #ident #ty_generics #where_clause`; the three parts are split off
the generics of the input. -/
structure Impl (Tok Ty : Type) where
  generics : List Tok
  ident : Ident
  body : ImplBody Ty
deriving DecidableEq, Repr

/-- The argument of `quote!`. -/
def expand (input : DeriveInput Tok Ty) (keyIdent : Ident) (keyType : Ty) : List (Impl Tok Ty) :=
  [.borrow keyType keyIdent, .hash keyIdent, .partialEq keyIdent, .eq, .partialOrd,
    .ord keyIdent].map fun body => ⟨input.generics, input.ident, body⟩

/-- The traits that impls are emitted for. -/
inductive Trait where
  | borrow
  | hash
  | partialEq
  | eq
  | partialOrd
  | ord
deriving DecidableEq, Repr

namespace ImplBody

def trait : ImplBody Ty → Trait
  | borrow _ _ => .borrow
  | hash _ => .hash
  | partialEq _ => .partialEq
  | eq => .eq
  | partialOrd => .partialOrd
  | ord _ => .ord

/-- The type argument of the trait. -/
def target : ImplBody Ty → Option Ty
  | borrow keyType _ => some keyType
  | _ => none

/-- The field that the body reads. -/
def reads : ImplBody Ty → Option Ident
  | borrow _ keyIdent | hash keyIdent | partialEq keyIdent | ord keyIdent => some keyIdent
  | eq | partialOrd => none

end ImplBody

/-- What is emitted for the key `k` that is borrowed as `ty`: impls of the six traits for the
struct of the input, of which only that of `Borrow` has an argument, and no body reads another
field. -/
structure Uses (input : DeriveInput Tok Ty) (k : Ident) (ty : Ty) (out : List (Impl Tok Ty)) :
    Prop where
  traits : out.map (·.body.trait) = [.borrow, .hash, .partialEq, .eq, .partialOrd, .ord]
  self : ∀ i ∈ out, i.generics = input.generics ∧ i.ident = input.ident
  target : ∀ i ∈ out, ∀ ty', i.body.target = some ty' → ty' = ty
  reads : ∀ i ∈ out, ∀ k', i.body.reads = some k' → k' = k

/-- The body of the impl of each trait. -/
def Trait.body (ty : Ty) (k : Ident) : Trait → ImplBody Ty
  | borrow => .borrow ty k
  | hash => .hash k
  | partialEq => .partialEq k
  | eq => .eq
  | partialOrd => .partialOrd
  | ord => .ord k

section uses
variable {input : DeriveInput Tok Ty} {k : Ident} {ty : Ty} {out : List (Impl Tok Ty)}

theorem expand_eq_map : expand input k ty =
    [Trait.borrow, .hash, .partialEq, .eq, .partialOrd, .ord].map fun t =>
      ⟨input.generics, input.ident, t.body ty k⟩ := rfl

theorem uses_expand (input : DeriveInput Tok Ty) (k : Ident) (ty : Ty) :
    Uses input k ty (expand input k ty) := by
  have emitted : ∀ i ∈ expand input k ty,
      ∃ t : Trait, i = ⟨input.generics, input.ident, t.body ty k⟩ := fun i hi => by
    rw [expand_eq_map] at hi
    obtain ⟨t, -, rfl⟩ := List.mem_map.mp hi
    exact ⟨t, rfl⟩
  refine ⟨rfl, fun i hi => ?_, fun i hi ty' ht => ?_, fun i hi k' hr => ?_⟩
  · obtain ⟨t, rfl⟩ := emitted i hi
    exact ⟨rfl, rfl⟩
  · obtain ⟨t, rfl⟩ := emitted i hi
    cases t <;> cases ht
    rfl
  · obtain ⟨t, rfl⟩ := emitted i hi
    cases t <;> cases hr <;> rfl

/-- **The output** is determined by what it uses. -/
theorem uses_iff : Uses input k ty out ↔ out = expand input k ty := by
  refine ⟨fun h => ?_, fun h => h ▸ uses_expand input k ty⟩
  have hbody : ∀ i ∈ out, i = ⟨input.generics, input.ident, i.body.trait.body ty k⟩ := by
    rintro ⟨generics, ident, b⟩ hi
    obtain ⟨rfl, rfl⟩ := h.self _ hi
    have htarget := h.target _ hi
    have hreads := h.reads _ hi
    cases b with
    | borrow ty' k' => rw [htarget ty' rfl, hreads k' rfl]; rfl
    | hash k' | partialEq k' | ord k' => rw [hreads k' rfl]; rfl
    | eq | partialOrd => rfl
  calc
    out = out.map fun i => ⟨input.generics, input.ident, i.body.trait.body ty k⟩ := by
      rw [← List.map_congr_left hbody, List.map_id']
    _ = expand input k ty := by rw [expand_eq_map, ← h.traits, List.map_map]; rfl

end uses

/-! ### The macro -/

/-- The variables `key_ident` and `key_type`. -/
structure KeyVars (Ty : Type) where
  keyIdent : Option Ident
  keyType : Option Ty

def KeyVars.unset : KeyVars Ty := ⟨none, none⟩

variable (parse : List Tok → Option Ty)

/-- The body of `for field in data_struct.fields`. -/
def visitField (vars : KeyVars Ty) (field : Field Tok Ty) :
    Except (Error Tok Ty) (KeyVars Ty) :=
  match field.attrs.find? Attribute.isKey with
  | none => .ok vars
  | some attr =>
      if vars.keyIdent.isSome || vars.keyType.isSome then
        .error ⟨.attr attr, "`BorrowKey`: expect exact 1 key to be specified"⟩
      else if field.ident.isNone then
        .error ⟨.field field, "`BorrowKey`: tuple struct does not need this proc-macro"⟩
      else
        .ok {
          keyIdent := field.ident
          keyType :=
            match attr.parseArgs parse with
            | some type => some type
            | none => some field.ty }

/-- `match input.data` -/
def findKey (data : Data Tok Ty) : Except (Error Tok Ty) (KeyVars Ty) :=
  match data with
  | .struct fields => fields.foldlM (visitField parse) .unset
  | .enum => .error ⟨.enumToken, "`BorrowKey`: enum type is not supported"⟩
  | .union => .error ⟨.unionToken, "`BorrowKey`: union type is not supported"⟩

def deriveBorrowKey (input : DeriveInput Tok Ty) :
    Except (Error Tok Ty) (List (Impl Tok Ty)) := do
  let vars ← findKey parse input.data
  match vars.keyIdent, vars.keyType with
  | some keyIdent, some keyType => .ok (expand input keyIdent keyType)
  | _, _ =>
      .error ⟨.ident input.ident,
        "`BorrowKey`: expect exact 1 key to be specified with #[key($type?: ty)]"⟩

end CorustHackathon.BorrowKey
