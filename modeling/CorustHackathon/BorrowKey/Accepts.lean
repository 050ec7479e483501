import CorustHackathon.BorrowKey.Macro

/-! # What `BorrowKey` accepts

The loop over the fields looks at the first key attribute of each field only, so that it runs over
`firstKeys` (`derive_ok_iff`).  A second key attribute of one field is not seen: the macro accepts
more than the inputs with one key attribute (`accepts_one_key_iff`).  The arguments of the
attribute count where they are a type, and are otherwise treated as if they were not there
(`borrows_as_written_iff`). -/

namespace CorustHackathon.BorrowKey

variable {Tok Ty : Type} {parse : List Tok → Option Ty}

/-! ### The loop over the fields -/

/-- The fields with a key attribute, each with its first one. -/
def firstKeys (fields : List (Field Tok Ty)) : List (Field Tok Ty × Attribute Tok) :=
  fields.filterMap fun f => (f.attrs.find? Attribute.isKey).map (f, ·)

section loop
variable {f : Field Tok Ty} {fields : List (Field Tok Ty)} {a : Attribute Tok}
  {vars : KeyVars Ty} {rest : List (Field Tok Ty × Attribute Tok)}

theorem firstKeys_cons_of_none (h : f.attrs.find? Attribute.isKey = none) :
    firstKeys (f :: fields) = firstKeys fields := by
  simp [firstKeys, h]

theorem firstKeys_cons_of_some (h : f.attrs.find? Attribute.isKey = some a) :
    firstKeys (f :: fields) = (f, a) :: firstKeys fields := by
  simp [firstKeys, h]

theorem visitField_of_none (h : f.attrs.find? Attribute.isKey = none) :
    visitField parse vars f = .ok vars := by
  simp [visitField, h]

/-- A key attribute where the key has been set. -/
theorem visitField_of_set {k : Ident} {ty : Ty} (h : f.attrs.find? Attribute.isKey = some a) :
    visitField parse ⟨some k, some ty⟩ f =
      .error ⟨.attr a, "`BorrowKey`: expect exact 1 key to be specified"⟩ := by
  simp [visitField, h]

theorem visitField_of_tuple (h : f.attrs.find? Attribute.isKey = some a) (hf : f.ident = none) :
    visitField parse .unset f =
      .error ⟨.field f, "`BorrowKey`: tuple struct does not need this proc-macro"⟩ := by
  simp [visitField, KeyVars.unset, h, hf]

theorem visitField_of_named {k : Ident} (h : f.attrs.find? Attribute.isKey = some a)
    (hf : f.ident = some k) :
    visitField parse .unset f = .ok ⟨some k, some ((a.parseArgs parse).getD f.ty)⟩ := by
  cases hp : a.parseArgs parse <;> simp [visitField, KeyVars.unset, h, hf, hp]

theorem foldlM_of_nil (h : firstKeys fields = []) :
    fields.foldlM (visitField parse) vars = .ok vars := by
  induction fields with
  | nil => rfl
  | cons g fields ih =>
      rw [List.foldlM_cons]
      cases hg : g.attrs.find? Attribute.isKey with
      | none =>
          rw [firstKeys_cons_of_none hg] at h
          rw [visitField_of_none hg]
          exact ih h
      | some b =>
          rw [firstKeys_cons_of_some hg] at h
          cases h

/-- The loop begins at the first field with a key attribute. -/
theorem foldlM_of_cons (parse : List Tok → Option Ty) (vars : KeyVars Ty)
    (h : firstKeys fields = (f, a) :: rest) :
    ∃ fields', f.attrs.find? Attribute.isKey = some a ∧ firstKeys fields' = rest ∧
      fields.foldlM (visitField parse) vars =
        visitField parse vars f >>= fields'.foldlM (visitField parse) := by
  induction fields with
  | nil => cases h
  | cons g fields ih =>
      rw [List.foldlM_cons]
      cases hg : g.attrs.find? Attribute.isKey with
      | none =>
          rw [firstKeys_cons_of_none hg] at h
          rw [visitField_of_none hg]
          exact ih h
      | some b =>
          rw [firstKeys_cons_of_some hg] at h
          obtain ⟨⟨rfl, rfl⟩, rfl⟩ : (g = f ∧ b = a) ∧ firstKeys fields = rest := by
            simpa using h
          exact ⟨fields, hg, rfl, rfl⟩

end loop

/-! ### What the macro returns -/

section outcome
variable {input : DeriveInput Tok Ty} {fields : List (Field Tok Ty)} {f g : Field Tok Ty}
  {a b : Attribute Tok} {k : Ident} {rest : List (Field Tok Ty × Attribute Tok)}

theorem derive_of_nil (hd : input.data = .struct fields) (h : firstKeys fields = []) :
    deriveBorrowKey parse input = .error ⟨.ident input.ident,
      "`BorrowKey`: expect exact 1 key to be specified with #[key($type?: ty)]"⟩ := by
  rw [deriveBorrowKey, hd, findKey, foldlM_of_nil h]
  rfl

theorem derive_of_tuple (hd : input.data = .struct fields)
    (h : firstKeys fields = (f, a) :: rest) (hf : f.ident = none) :
    deriveBorrowKey parse input =
      .error ⟨.field f, "`BorrowKey`: tuple struct does not need this proc-macro"⟩ := by
  obtain ⟨fields', ha, -, he⟩ := foldlM_of_cons parse .unset h
  rw [deriveBorrowKey, hd, findKey, he, visitField_of_tuple ha hf]
  rfl

theorem derive_of_one (hd : input.data = .struct fields) (h : firstKeys fields = [(f, a)])
    (hf : f.ident = some k) :
    deriveBorrowKey parse input = .ok (expand input k ((a.parseArgs parse).getD f.ty)) := by
  obtain ⟨fields', ha, hnil, he⟩ := foldlM_of_cons parse .unset h
  rw [deriveBorrowKey, hd, findKey, he, visitField_of_named ha hf]
  show (fields'.foldlM (visitField parse) _ >>= _) = _
  rw [foldlM_of_nil hnil]
  rfl

theorem derive_of_two (hd : input.data = .struct fields)
    (h : firstKeys fields = (f, a) :: (g, b) :: rest) (hf : f.ident = some k) :
    deriveBorrowKey parse input =
      .error ⟨.attr b, "`BorrowKey`: expect exact 1 key to be specified"⟩ := by
  obtain ⟨fields', ha, hcons, he⟩ := foldlM_of_cons parse .unset h
  obtain ⟨fields'', hb, -, he'⟩ := foldlM_of_cons parse
    ⟨some k, some ((a.parseArgs parse).getD f.ty)⟩ hcons
  rw [deriveBorrowKey, hd, findKey, he, visitField_of_named ha hf]
  show (fields'.foldlM (visitField parse) _ >>= _) = _
  rw [he', visitField_of_set hb]
  rfl

/-- **What is accepted**: a struct with one field that has key attributes, which has a name; the
first of its key attributes says what it is borrowed as. -/
theorem derive_ok_iff {out : List (Impl Tok Ty)} :
    deriveBorrowKey parse input = .ok out ↔
      ∃ fields f a k, input.data = .struct fields ∧ firstKeys fields = [(f, a)] ∧
        f.ident = some k ∧ out = expand input k ((a.parseArgs parse).getD f.ty) := by
  constructor
  · intro h
    cases hd : input.data with
    | struct fields =>
        match hk : firstKeys fields with
        | [] =>
            rw [derive_of_nil hd hk] at h
            cases h
        | (f, a) :: rest =>
            cases hf : f.ident with
            | none =>
                rw [derive_of_tuple hd hk hf] at h
                cases h
            | some k =>
                match rest with
                | [] =>
                    rw [derive_of_one hd hk hf] at h
                    exact ⟨fields, f, a, k, rfl, hk, hf, (Except.ok.inj h).symm⟩
                | (g, b) :: rest =>
                    rw [derive_of_two hd hk hf] at h
                    cases h
    | enum =>
        rw [deriveBorrowKey, hd, findKey] at h
        cases h
    | union =>
        rw [deriveBorrowKey, hd, findKey] at h
        cases h
  · rintro ⟨fields, f, a, k, hd, hk, hf, rfl⟩
    exact derive_of_one hd hk hf

theorem derive_error_of_not_ok (h : ¬ ∃ out, deriveBorrowKey parse input = .ok out) :
    ∃ e, deriveBorrowKey parse input = .error e := by
  cases he : deriveBorrowKey parse input with
  | ok out => exact absurd ⟨out, he⟩ h
  | error e => exact ⟨e, rfl⟩

end outcome

/-! ### One key attribute -/

def Field.hasKey (f : Field Tok Ty) : Bool := f.attrs.any Attribute.isKey

/-- The key attributes of all fields, each with its field. -/
def keyAttrs (fields : List (Field Tok Ty)) : List (Field Tok Ty × Attribute Tok) :=
  fields.flatMap fun f => (f.attrs.filter Attribute.isKey).map (f, ·)

section keyAttrs
variable {fields : List (Field Tok Ty)} {f : Field Tok Ty} {a : Attribute Tok}

theorem firstKeys_map_fst (fields : List (Field Tok Ty)) :
    (firstKeys fields).map Prod.fst = fields.filter Field.hasKey := by
  induction fields with
  | nil => rfl
  | cons g fields ih =>
      cases hg : g.attrs.find? Attribute.isKey with
      | none =>
          have hk : ¬ g.hasKey = true := by
            simpa [Field.hasKey] using hg
          rw [firstKeys_cons_of_none hg, ih, List.filter_cons_of_neg hk]
      | some b =>
          have hk : g.hasKey = true :=
            List.any_eq_true.mpr ⟨b, List.mem_of_find?_eq_some hg, List.find?_some hg⟩
          rw [firstKeys_cons_of_some hg, List.map_cons, ih, List.filter_cons_of_pos hk]

theorem find?_of_firstKeys (h : firstKeys fields = [(f, a)]) :
    f.attrs.find? Attribute.isKey = some a :=
  (foldlM_of_cons (fun _ => none) .unset h).choose_spec.1

theorem keyAttrs_eq_nil_iff : keyAttrs fields = [] ↔ firstKeys fields = [] := by
  simp [keyAttrs, firstKeys]

/-- One key attribute: one field has key attributes, and it has one. -/
theorem keyAttrs_eq_singleton_iff : keyAttrs fields = [(f, a)] ↔
    firstKeys fields = [(f, a)] ∧ f.attrs.filter Attribute.isKey = [a] := by
  induction fields with
  | nil => simp [keyAttrs, firstKeys]
  | cons g fields ih =>
      have hhead := List.head?_filter (p := Attribute.isKey) (l := g.attrs)
      have hcons : keyAttrs (g :: fields) =
          (g.attrs.filter Attribute.isKey).map (g, ·) ++ keyAttrs fields := rfl
      rw [hcons]
      cases hg : g.attrs.filter Attribute.isKey with
      | nil =>
          rw [hg] at hhead
          rw [firstKeys_cons_of_none hhead.symm]
          exact ih
      | cons b bs =>
          rw [hg] at hhead
          rw [firstKeys_cons_of_some hhead.symm]
          simp only [List.map_cons, List.cons_append, List.cons.injEq, Prod.mk.injEq,
            List.append_eq_nil_iff, List.map_eq_nil_iff, keyAttrs_eq_nil_iff]
          constructor
          · rintro ⟨⟨rfl, rfl⟩, rfl, hnil⟩
            exact ⟨⟨⟨rfl, rfl⟩, hnil⟩, hg⟩
          · rintro ⟨⟨⟨rfl, rfl⟩, hnil⟩, hf⟩
            rw [hg, List.cons.injEq] at hf
            exact ⟨⟨rfl, rfl⟩, hf.2, hnil⟩

end keyAttrs

/-- The input is a struct, and `a` of the field `f` is the only key attribute. -/
def OneKey (input : DeriveInput Tok Ty) (f : Field Tok Ty) (a : Attribute Tok) : Prop :=
  ∃ fields, input.data = .struct fields ∧ keyAttrs fields = [(f, a)]

/-- The input is a struct whose only field with key attributes has two of them or more, and a
name. -/
def DoubledKey (input : DeriveInput Tok Ty) : Prop :=
  ∃ fields f, input.data = .struct fields ∧ fields.filter Field.hasKey = [f] ∧
    f.ident.isSome = true ∧ 2 ≤ f.attrs.countP Attribute.isKey

/-- The macro emits its impls for an input with one key attribute, on a field with a name, and
they use this field; for every other input it emits an error. -/
structure AcceptsOneKey (parse : List Tok → Option Ty) (input : DeriveInput Tok Ty) : Prop where
  accepts_iff : (∃ out, deriveBorrowKey parse input = .ok out) ↔
    ∃ f a, OneKey input f a ∧ f.ident.isSome = true
  rejects : (¬ ∃ f a, OneKey input f a ∧ f.ident.isSome = true) →
    ∃ e, deriveBorrowKey parse input = .error e
  uses : ∀ out f a, deriveBorrowKey parse input = .ok out → OneKey input f a →
    ∃ k ty, f.ident = some k ∧ Uses input k ty out

section oneKey
variable {input : DeriveInput Tok Ty} {f : Field Tok Ty} {a : Attribute Tok} {k : Ident}

theorem OneKey.firstKeys (h : OneKey input f a) :
    ∃ fields, input.data = .struct fields ∧ firstKeys fields = [(f, a)] := by
  obtain ⟨fields, hd, hk⟩ := h
  exact ⟨fields, hd, (keyAttrs_eq_singleton_iff.mp hk).1⟩

theorem OneKey.derive (parse : List Tok → Option Ty) (h : OneKey input f a)
    (hf : f.ident = some k) :
    deriveBorrowKey parse input = .ok (expand input k ((a.parseArgs parse).getD f.ty)) := by
  obtain ⟨fields, hd, hk⟩ := h.firstKeys
  exact derive_of_one hd hk hf

theorem OneKey.not_doubledKey (h : OneKey input f a) : ¬ DoubledKey input := by
  rintro ⟨fields, g, hd, hg, -, htwo⟩
  obtain ⟨fields', hd', hk⟩ := h
  obtain rfl : fields = fields' := Data.struct.inj (hd.symm.trans hd')
  obtain ⟨hfirst, hone⟩ := keyAttrs_eq_singleton_iff.mp hk
  have hfg : [f] = [g] := by rw [← hg, ← firstKeys_map_fst, hfirst]; rfl
  obtain rfl : f = g := List.singleton_inj.mp hfg
  rw [List.countP_eq_length_filter, hone] at htwo
  exact absurd htwo (by simp)

theorem oneKey_of_firstKeys {fields : List (Field Tok Ty)} (hd : input.data = .struct fields)
    (h : firstKeys fields = [(f, a)]) (hf : f.ident.isSome = true) (hn : ¬ DoubledKey input) :
    OneKey input f a := by
  refine ⟨fields, hd, keyAttrs_eq_singleton_iff.mpr ⟨h, ?_⟩⟩
  have hlt : f.attrs.countP Attribute.isKey < 2 := by
    by_contra hle
    refine hn ⟨fields, f, hd, ?_, hf, Nat.le_of_not_lt hle⟩
    rw [← firstKeys_map_fst, h]
    rfl
  have hhead := List.head?_filter (p := Attribute.isKey) (l := f.attrs)
  rw [find?_of_firstKeys h] at hhead
  rw [List.countP_eq_length_filter] at hlt
  match hk : f.attrs.filter Attribute.isKey with
  | [] =>
      rw [hk] at hhead
      cases hhead
  | [b] =>
      rw [hk] at hhead
      cases hhead
      rfl
  | b :: c :: bs =>
      rw [hk] at hlt
      simp only [List.length_cons] at hlt
      omega

end oneKey

/-- **One key**: the macro accepts exactly the inputs with one key attribute, but for those where
the field with the key has several. -/
theorem accepts_one_key_iff (parse : List Tok → Option Ty) (input : DeriveInput Tok Ty) :
    AcceptsOneKey parse input ↔ ¬ DoubledKey input := by
  constructor
  · rintro h ⟨fields, f, hd, hf, hname, htwo⟩
    obtain ⟨k, hk⟩ := Option.isSome_iff_exists.mp hname
    obtain ⟨⟨g, a⟩, ha, rfl⟩ : ∃ p, firstKeys fields = [p] ∧ p.1 = f := by
      rw [← firstKeys_map_fst] at hf
      simpa using List.map_eq_singleton_iff.mp hf
    obtain ⟨f', a', hone, -⟩ := h.accepts_iff.mp ⟨_, derive_of_one hd ha hk⟩
    exact hone.not_doubledKey ⟨fields, g, hd, hf, hname, htwo⟩
  · intro hn
    have hiff : (∃ out, deriveBorrowKey parse input = .ok out) ↔
        ∃ f a, OneKey input f a ∧ f.ident.isSome = true := by
      constructor
      · rintro ⟨out, ho⟩
        obtain ⟨fields, f, a, k, hd, hk, hf, -⟩ := derive_ok_iff.mp ho
        have hname : f.ident.isSome = true := by rw [hf]; rfl
        exact ⟨f, a, oneKey_of_firstKeys hd hk hname hn, hname⟩
      · rintro ⟨f, a, hone, hname⟩
        obtain ⟨k, hk⟩ := Option.isSome_iff_exists.mp hname
        exact ⟨_, hone.derive parse hk⟩
    refine ⟨hiff, fun h => derive_error_of_not_ok (mt hiff.mp h), fun out f a ho hone => ?_⟩
    obtain ⟨fields, g, b, k, hd, hk, hg, rfl⟩ := derive_ok_iff.mp ho
    obtain ⟨fields', hd', hk'⟩ := hone.firstKeys
    obtain rfl : fields = fields' := Data.struct.inj (hd.symm.trans hd')
    obtain ⟨rfl, rfl⟩ : g = f ∧ b = a := by simpa using hk.symm.trans hk'
    exact ⟨k, _, hg, uses_expand input k _⟩

/-- The types of one identifier. -/
def oneIdent : List String → Option String
  | [t] => some t
  | _ => none

/-- `key` as the path of an attribute. -/
def keyPath : Path String := ⟨false, [⟨"key", none⟩]⟩

/-- `struct Foo { #[key] #[key] key: String }` -/
def doubled : DeriveInput String String :=
  ⟨"Foo", [], .struct [⟨[⟨.path keyPath⟩, ⟨.path keyPath⟩], some "key", "String"⟩]⟩

/-- The second key attribute of a field goes unnoticed. -/
theorem accepts_doubled_key : ¬ AcceptsOneKey oneIdent doubled := by
  intro h
  obtain ⟨f, a, hone, -⟩ := h.accepts_iff.mp ⟨_, rfl⟩
  exact hone.not_doubledKey ⟨_, _, rfl, rfl, rfl, by decide⟩

/-! ### The type to be borrowed as -/

/-- The attribute has no arguments. -/
def Meta.NoArgs : Meta Tok → Prop
  | path _ => True
  | list _ tokens => tokens = []
  | nameValue _ _ => False

/-- The arguments of the attribute are the type `ty`. -/
def Meta.OneType (parse : List Tok → Option Ty) (ty : Ty) : Meta Tok → Prop
  | list _ tokens => parse tokens = some ty
  | path _ | nameValue _ _ => False

theorem parseArgs_eq_some_iff {a : Attribute Tok} {ty : Ty} :
    a.parseArgs parse = some ty ↔ a.metaItem.OneType parse ty := by
  cases a with
  | mk m =>
      cases m with
      | list => rfl
      | path | nameValue => exact ⟨nofun, False.elim⟩

theorem parseArgs_of_noArgs {a : Attribute Tok} (hnil : parse [] = none)
    (h : a.metaItem.NoArgs) : a.parseArgs parse = none := by
  cases a with
  | mk m =>
      cases m with
      | list _ tokens =>
          obtain rfl : tokens = [] := h
          exact hnil
      | path | nameValue => rfl

/-- The struct is borrowed as the type of its field where the attribute has no arguments, as the
type that the arguments are, and with other arguments an error is emitted. -/
structure BorrowsAsWritten (parse : List Tok → Option Ty) (input : DeriveInput Tok Ty)
    (f : Field Tok Ty) (a : Attribute Tok) (k : Ident) : Prop where
  noArgs : a.metaItem.NoArgs → ∃ out, deriveBorrowKey parse input = .ok out ∧
    Uses input k f.ty out
  oneType : ∀ ty, a.metaItem.OneType parse ty → ∃ out, deriveBorrowKey parse input = .ok out ∧
    Uses input k ty out
  other : ¬ a.metaItem.NoArgs → (∀ ty, ¬ a.metaItem.OneType parse ty) →
    ∃ e, deriveBorrowKey parse input = .error e

/-- **The type that is written**: the macro borrows as it unless the attribute has arguments that
are not a type. -/
theorem borrows_as_written_iff {input : DeriveInput Tok Ty} {f : Field Tok Ty}
    {a : Attribute Tok} {k : Ident} (hnil : parse [] = none) (h : OneKey input f a)
    (hf : f.ident = some k) :
    BorrowsAsWritten parse input f a k ↔
      a.metaItem.NoArgs ∨ ∃ ty, a.metaItem.OneType parse ty := by
  have hok := h.derive parse hf
  constructor
  · intro hb
    by_contra hn
    rw [not_or, not_exists] at hn
    obtain ⟨e, he⟩ := hb.other hn.1 hn.2
    rw [hok] at he
    cases he
  · intro hw
    constructor
    · intro hno
      rw [parseArgs_of_noArgs hnil hno] at hok
      exact ⟨_, hok, uses_expand input k f.ty⟩
    · intro ty hty
      rw [parseArgs_eq_some_iff.mpr hty] at hok
      exact ⟨_, hok, uses_expand input k ty⟩
    · intro hno hty
      rcases hw with hw | ⟨ty, hw⟩
      · exact absurd hw hno
      · exact absurd hw (hty ty)

/-- `struct Foo { #[key(tokens)] key: String }` -/
def keyedBy (tokens : List String) : DeriveInput String String :=
  ⟨"Foo", [], .struct [⟨[⟨.list keyPath tokens⟩], some "key", "String"⟩]⟩

theorem oneKey_keyedBy (tokens : List String) : OneKey (keyedBy tokens)
    ⟨[⟨.list keyPath tokens⟩], some "key", "String"⟩ ⟨.list keyPath tokens⟩ :=
  ⟨_, rfl, rfl⟩

/-- `#[key(str)]` -/
theorem borrows_as_written_str : BorrowsAsWritten oneIdent (keyedBy ["str"])
    ⟨[⟨.list keyPath ["str"]⟩], some "key", "String"⟩ ⟨.list keyPath ["str"]⟩ "key" :=
  (borrows_as_written_iff rfl (oneKey_keyedBy _) rfl).mpr (.inr ⟨"str", rfl⟩)

/-- `#[key(str, String)]` is taken for `#[key]`. -/
theorem borrows_mistyped_key : ¬ BorrowsAsWritten oneIdent (keyedBy ["str", ",", "String"])
    ⟨[⟨.list keyPath ["str", ",", "String"]⟩], some "key", "String"⟩
    ⟨.list keyPath ["str", ",", "String"]⟩ "key" := by
  intro h
  obtain ⟨e, he⟩ := h.other nofun nofun
  cases he

end CorustHackathon.BorrowKey
