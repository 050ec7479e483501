import CorustHackathon.BorrowKey.Accepts

/-! # What `BorrowKey` reports

An input that the macro refuses gets one error, whose message and span are those of the first place
at which the input goes wrong.  `Refused` lists the places by the shape of the input alone
(`derive_error_iff`): what stands behind the place, or is written in the arguments of a key
attribute, has no part in it. -/

namespace CorustHackathon.BorrowKey

variable {Tok Ty : Type} {parse : List Tok → Option Ty}

/-- No field has a key attribute. -/
def Keyless (fields : List (Field Tok Ty)) : Prop := ∀ f ∈ fields, f.hasKey = false

/-- The error for an item with the name `ident`. -/
inductive Refused (ident : Ident) : Data Tok Ty → Error Tok Ty → Prop
  | enum : Refused ident .enum ⟨.enumToken, "`BorrowKey`: enum type is not supported"⟩
  | union : Refused ident .union ⟨.unionToken, "`BorrowKey`: union type is not supported"⟩
  | noKey {fields : List (Field Tok Ty)} : Keyless fields →
      Refused ident (.struct fields) ⟨.ident ident,
        "`BorrowKey`: expect exact 1 key to be specified with #[key($type?: ty)]"⟩
  /-- The first field with a key attribute has no name. -/
  | tupleStruct {before after : List (Field Tok Ty)} {f : Field Tok Ty} :
      Keyless before → f.hasKey = true → f.ident = none →
      Refused ident (.struct (before ++ f :: after))
        ⟨.field f, "`BorrowKey`: tuple struct does not need this proc-macro"⟩
  /-- It has one, and `b` is the first key attribute of the next field that has any. -/
  | secondKey {before between after : List (Field Tok Ty)} {f g : Field Tok Ty}
      {as bs : List (Attribute Tok)} {b : Attribute Tok} :
      Keyless before → f.hasKey = true → f.ident ≠ none → Keyless between →
      g.attrs = as ++ b :: bs → (∀ a ∈ as, a.isKey = false) → b.isKey = true →
      Refused ident (.struct (before ++ f :: (between ++ g :: after)))
        ⟨.attr b, "`BorrowKey`: expect exact 1 key to be specified"⟩

section
variable {fields : List (Field Tok Ty)} {f : Field Tok Ty} {a : Attribute Tok}
  {rest : List (Field Tok Ty × Attribute Tok)}

theorem hasKey_eq_false_iff : f.hasKey = false ↔ f.attrs.find? Attribute.isKey = none := by
  simp [Field.hasKey]

theorem hasKey_iff : f.hasKey = true ↔ ∃ a, f.attrs.find? Attribute.isKey = some a := by
  rw [← Option.isSome_iff_exists, List.find?_isSome]
  simp [Field.hasKey]

theorem firstKeys_eq_nil_iff : firstKeys fields = [] ↔ Keyless fields := by
  simp only [firstKeys, List.filterMap_eq_nil_iff, Option.map_eq_none_iff, Keyless,
    hasKey_eq_false_iff]

/-- The first field with a key attribute, and what follows it. -/
theorem firstKeys_eq_cons_iff : firstKeys fields = (f, a) :: rest ↔
    ∃ before after, fields = before ++ f :: after ∧ Keyless before ∧
      f.attrs.find? Attribute.isKey = some a ∧ firstKeys after = rest := by
  unfold firstKeys
  rw [List.filterMap_eq_cons_iff]
  constructor
  · rintro ⟨before, g, after, rfl, hbefore, hg, hrest⟩
    obtain ⟨b, hb, he⟩ := Option.map_eq_some_iff.mp hg
    cases he
    refine ⟨before, after, rfl, fun h hh => ?_, hb, hrest⟩
    exact hasKey_eq_false_iff.mpr (Option.map_eq_none_iff.mp (hbefore h hh))
  · rintro ⟨before, after, rfl, hbefore, hf, hrest⟩
    refine ⟨before, f, after, rfl, fun h hh => ?_, by rw [hf]; rfl, hrest⟩
    rw [hasKey_eq_false_iff.mp (hbefore h hh)]
    rfl

end

section
variable {input : DeriveInput Tok Ty} {e : Error Tok Ty}

theorem derive_of_refused (h : Refused input.ident input.data e) :
    deriveBorrowKey parse input = .error e := by
  generalize hd : input.data = data at h
  cases h with
  | enum => rw [deriveBorrowKey, hd]; rfl
  | union => rw [deriveBorrowKey, hd]; rfl
  | noKey hnone => exact derive_of_nil hd (firstKeys_eq_nil_iff.mpr hnone)
  | tupleStruct hbefore hkey hf =>
      obtain ⟨a, ha⟩ := hasKey_iff.mp hkey
      exact derive_of_tuple hd (firstKeys_eq_cons_iff.mpr ⟨_, _, rfl, hbefore, ha, rfl⟩) hf
  | @secondKey before between after f g as bs b hbefore hkey hf hbetween hg has hb =>
      obtain ⟨a, ha⟩ := hasKey_iff.mp hkey
      obtain ⟨k, hk⟩ := Option.ne_none_iff_exists'.mp hf
      have hfind : g.attrs.find? Attribute.isKey = some b :=
        List.find?_eq_some_iff_append.mpr ⟨hb, as, bs, hg, by simpa using has⟩
      have hsecond : firstKeys (between ++ g :: after) = (g, b) :: firstKeys after :=
        firstKeys_eq_cons_iff.mpr ⟨between, after, rfl, hbetween, hfind, rfl⟩
      exact derive_of_two hd (firstKeys_eq_cons_iff.mpr ⟨_, _, rfl, hbefore, ha, hsecond⟩) hk

/-- **The error is that of the first place at which the input goes wrong.** -/
theorem derive_error_iff :
    deriveBorrowKey parse input = .error e ↔ Refused input.ident input.data e := by
  refine ⟨fun h => ?_, derive_of_refused⟩
  -- the macro refuses for a reason, and the error is the one for this reason
  suffices hr : ∃ e', Refused input.ident input.data e' by
    obtain ⟨e', hr⟩ := hr
    rw [derive_of_refused hr] at h
    exact Except.error.inj h ▸ hr
  cases hd : input.data with
  | enum => exact ⟨_, .enum⟩
  | union => exact ⟨_, .union⟩
  | struct fields =>
      match hk : firstKeys fields with
      | [] => exact ⟨_, .noKey (firstKeys_eq_nil_iff.mp hk)⟩
      | (f, a) :: rest =>
          obtain ⟨before, after, rfl, hbefore, ha, hafter⟩ := firstKeys_eq_cons_iff.mp hk
          have hkey := hasKey_iff.mpr ⟨a, ha⟩
          cases hf : f.ident with
          | none => exact ⟨_, .tupleStruct hbefore hkey hf⟩
          | some k =>
              match rest with
              | [] =>
                  rw [derive_of_one hd hk hf] at h
                  cases h
              | (g, b) :: rest =>
                  obtain ⟨between, after, rfl, hbetween, hg, -⟩ :=
                    firstKeys_eq_cons_iff.mp hafter
                  obtain ⟨hb, as, bs, hattrs, has⟩ := List.find?_eq_some_iff_append.mp hg
                  exact ⟨_, .secondKey hbefore hkey (by rw [hf]; nofun) hbetween hattrs
                    (by simpa using has) hb⟩

end

end CorustHackathon.BorrowKey
