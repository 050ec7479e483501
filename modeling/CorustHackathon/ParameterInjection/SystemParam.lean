import CorustHackathon.ParameterInjection.Isolation

/-! # Parameters that say how they are retrieved

`System2` of `parameter_injection/src/lib.rs` leaves the lookup of a parameter to its
`SystemParam::retrieve`, of which the source has the instance `FromU32<u64>`.  A parameter of a
`System` is the case where `retrieve` clones what is stored under the type itself.

For parameters of these two kinds, in any order, a `System2` is a `System` that asks for a `u32` in
the place of each `FromU32<u64>` and converts it: over any sequence of runs the two are called at
the same runs, with the same arguments up to the conversion, and end in the same state. -/

namespace CorustHackathon.ParameterInjection

variable {T : Types} [DecidableEq T.TypeId]

/-- `SystemParam`: a type and its `retrieve`. -/
structure SystemParam (T : Types) [DecidableEq T.TypeId] where
  Self : Type
  retrieve : Resources T → Option Self

/-- The arguments of a call with parameters of the types `Is`. -/
def Params : List (SystemParam T) → Type
  | [] => Unit
  | I :: Is => I.Self × Params Is

/-- `FunctionSystem<F, (I0, ..)>` as a `System2` -/
structure System2 (T : Types) [DecidableEq T.TypeId] where
  params : List (SystemParam T)
  arity : params.length ≤ 5
  Captured : Type
  state : Captured
  f : Captured → Params params → Captured

/-- The `let ... else` of each parameter in turn; the first that is missing returns. -/
def retrieveAll (resources : Resources T) : (Is : List (SystemParam T)) → Option (Params Is)
  | [] => some ()
  | I :: Is =>
      match I.retrieve resources with
      | none => none
      | some i =>
          match retrieveAll resources Is with
          | none => none
          | some is => some (i, is)

/-- `System2::run2`, with the arguments of the call, if there is one. -/
def System2.run2 (s : System2 T) (resources : Resources T) :
    System2 T × Option (Params s.params) :=
  match retrieveAll resources s.params with
  | none => (s, none)
  | some args => ({ s with state := s.f s.state args }, some args)

/-- The type `u32` among the types of a program; it is `Copy`. -/
structure HasU32 (T : Types) where
  u32 : T.Ty
  el : T.El u32 = UInt32
  clone : ∀ v, T.clone u32 v = v

/-- The number that a `u32` is. -/
def HasU32.val (u : HasU32 T) (v : T.El u.u32) : UInt32 := cast u.el v

/-- `FromU32<T>` -/
structure FromU32 (α : Type) where
  value : α

/-- `impl SystemParam for FromU32<u64>` -/
def FromU32.param (u : HasU32 T) : SystemParam T where
  Self := FromU32 UInt64
  retrieve resources :=
    ((resources.lookup (T.of u.u32)).bind fun r => r.downcastRef u.u32).map fun r =>
      ⟨(u.val r).toUInt64⟩

/-! ### Two kinds of parameters -/

/-- A parameter: a clone of what is stored under its type, or a `FromU32<u64>`. -/
inductive Param (T : Types) where
  | cloned (I : T.Ty)
  | fromU32

namespace Param

variable (u : HasU32 T)

def systemParam : Param T → SystemParam T
  | cloned I => ⟨T.El I, fun resources => retrieve resources I⟩
  | fromU32 => FromU32.param u

/-- The type under which its value is stored. -/
def stored : Param T → T.Ty
  | cloned I => I
  | fromU32 => u.u32

/-- The parameter, from a clone of what is stored. -/
def convert : (I : Param T) → T.El (I.stored u) → (I.systemParam u).Self
  | cloned _, x => x
  | fromU32, x => ⟨(u.val x).toUInt64⟩

/-- The arguments, one by one. -/
def convertAll : (Is : List (Param T)) → Args T (Is.map (stored u)) →
    Params (Is.map (systemParam u))
  | [], _ => ()
  | I :: Is, (x, xs) => (I.convert u x, convertAll Is xs)

variable {u}

theorem retrieve_eq (I : Param T) (resources : Resources T) :
    (I.systemParam u).retrieve resources =
      (retrieve resources (I.stored u)).map (I.convert u) := by
  cases I with
  | cloned I => exact (congrFun Option.map_id (retrieve resources I)).symm
  | fromU32 =>
      have hclone : T.clone u.u32 = id := funext u.clone
      simp only [systemParam, stored, FromU32.param, retrieve, hclone, Option.map_id, id_eq]
      rfl

/-- All parameters are there if all that is stored for them is. -/
theorem retrieveAll_eq (Is : List (Param T)) (resources : Resources T) :
    retrieveAll resources (Is.map (systemParam u)) =
      (inject resources (Is.map (stored u))).map (convertAll u Is) := by
  induction Is with
  | nil => rfl
  | cons I Is ih =>
      have hI : (I.systemParam u).retrieve resources = _ := I.retrieve_eq resources
      show retrieveAll resources (I.systemParam u :: Is.map (systemParam u)) =
        (inject resources (I.stored u :: Is.map (stored u))).map (convertAll u (I :: Is))
      simp only [retrieveAll, inject]
      cases hx : retrieve resources (I.stored u) with
      | none =>
          rw [hx] at hI
          simp only [hI, Option.map_none]
      | some x =>
          rw [hx] at hI
          simp only [hI, Option.map_some, ih]
          cases inject resources (Is.map (stored u)) with
          | none => rfl
          | some xs => rfl

end Param

/-! ### The two systems -/

/-- A closure `f` with such parameters, of which it takes at most five. -/
structure Closure (u : HasU32 T) where
  params : List (Param T)
  arity : params.length ≤ 5
  Captured : Type
  f : Captured → Params (params.map (Param.systemParam u)) → Captured

namespace Closure

variable {u : HasU32 T} (c : Closure u)

/-- It, as a `System2` in the state `x` -/
def system2 (x : c.Captured) : System2 T where
  params := c.params.map (Param.systemParam u)
  arity := by rw [List.length_map]; exact c.arity
  Captured := c.Captured
  state := x
  f := c.f

/-- The arguments, from what is stored. -/
def convert (args : Args T (c.params.map (Param.stored u))) :
    Params (c.params.map (Param.systemParam u)) := Param.convertAll u c.params args

/-- The `System` that asks for what is stored, and converts it. -/
def system (x : c.Captured) : System T where
  params := c.params.map (Param.stored u)
  arity := by rw [List.length_map]; exact c.arity
  Captured := c.Captured
  state := x
  f x args := c.f x (c.convert args)

variable {c} {x : c.Captured} {resources : Resources T}

theorem run2_of_none (h : inject resources (c.params.map (Param.stored u)) = none) :
    (c.system2 x).run2 resources = (c.system2 x, none) := by
  have hr : retrieveAll resources (c.system2 x).params = none := by
    exact (Param.retrieveAll_eq c.params resources).trans (by rw [h]; rfl)
  simp only [System2.run2, hr]

theorem run2_of_some {args : Args T (c.params.map (Param.stored u))}
    (h : inject resources (c.params.map (Param.stored u)) = some args) :
    (c.system2 x).run2 resources =
      (c.system2 (c.f x (c.convert args)), some (c.convert args)) := by
  have hr : retrieveAll resources (c.system2 x).params = some (c.convert args) := by
    exact (Param.retrieveAll_eq c.params resources).trans (by rw [h]; rfl)
  simp only [System2.run2, hr]
  rfl

end Closure

/-! ### Many runs -/

/-- Runs of a `System2`, each with its own resources, and the calls that they make. -/
def System2.runs (s : System2 T) : List (Resources T) → System2 T × List (Σ Is, Params (T := T) Is)
  | [] => (s, [])
  | resources :: rs =>
      let r := s.run2 resources
      let rest := r.1.runs rs
      (rest.1, (r.2.map fun args => ⟨s.params, args⟩).toList ++ rest.2)

namespace Closure

variable {u : HasU32 T} (c : Closure u)

/-- The state after calls of the `System`. -/
def stateAfter (x : c.Captured) (args : List (Args T (c.params.map (Param.stored u)))) :
    c.Captured :=
  args.foldl (fun x a => c.f x (c.convert a)) x

/-- These calls, made of the `System2`. -/
def calls2 (args : List (Args T (c.params.map (Param.stored u)))) :
    List (Σ Is, Params (T := T) Is) :=
  args.map fun a => ⟨_, c.convert a⟩

theorem runs2 (x : c.Captured) (rs : List (Resources T)) :
    (c.system2 x).runs rs =
      (c.system2 (c.stateAfter x (rs.filterMap (inject · (c.params.map (Param.stored u))))),
        c.calls2 (rs.filterMap (inject · (c.params.map (Param.stored u))))) := by
  induction rs generalizing x with
  | nil => rfl
  | cons resources rs ih =>
      rw [System2.runs, List.filterMap_cons]
      cases hi : inject resources (c.params.map (Param.stored u)) with
      | none =>
          rw [run2_of_none hi]
          exact ih x
      | some args =>
          rw [run2_of_some hi]
          simp only [ih]
          rfl

/-- The runs among `ops₂`, each given by the calls before it, where the closure is added to a
scheduler between the calls `ops₁` and `ops₂`. -/
def moments (x : c.Captured) (ops₁ ops₂ : List (Op T)) : List (List (Op T)) :=
  (beforeRuns ops₂).map (ops₁ ++ .addSystem (c.system x) :: ·)

/-- The closure as a `System` of a scheduler, and as a `System2` that is run at the same moments. -/
structure Agrees (x : c.Captured) (ops₁ ops₂ : List (Op T))
    (args : List (Args T (c.params.map (Param.stored u)))) : Prop where
  served : Served (c.params.map (Param.stored u)) (c.moments x ops₁ ops₂) args
  log : ((Scheduler.default : Scheduler T).log (ops₁ ++ .addSystem (c.system x) :: ops₂)).filter
    (·.system == (addedSystems ops₁).length) = args.map (⟨(addedSystems ops₁).length, _, ·⟩)
  state : (after (ops₁ ++ .addSystem (c.system x) :: ops₂)).systems[(addedSystems ops₁).length]? =
    some (c.system (c.stateAfter x args))
  /-- The same calls, up to the conversion, and the same state. -/
  runs2 : (c.system2 x).runs ((c.moments x ops₁ ops₂).map fun ops => (after ops).resources) =
    (c.system2 (c.stateAfter x args), c.calls2 args)
  /-- The conversion keeps the number. -/
  number : ∀ v : T.El u.u32, (Param.fromU32.convert u v).value.toNat = (u.val v).toNat

/-- **`System2` does what `System` does**, with `FromU32<u64>` for `u32`. -/
theorem run2_agrees (x : c.Captured) (ops₁ ops₂ : List (Op T)) :
    ∃ args, c.Agrees x ops₁ ops₂ args := by
  refine ⟨(after (ops₁ ++ [.addSystem (c.system x)])).argsAt (c.system x).params ops₂,
    ?_, ?_, ?_, ?_, fun v => UInt32.toNat_toUInt64 _⟩
  · have h := served_argsAt (ops₁ ++ [.addSystem (c.system x)]) (c.system x).params ops₂
    simp only [List.append_assoc, List.singleton_append] at h
    exact h
  · exact log_filter_added ops₁ (c.system x) ops₂
  · rw [after_append_cons]
    exact Scheduler.systems_foldl (systems_added ops₁ (c.system x)) ops₂
  · rw [runs2, List.filterMap_map]
    have hargs : (c.moments x ops₁ ops₂).filterMap
        ((inject · (c.params.map (Param.stored u))) ∘ fun ops => (after ops).resources) =
        (after (ops₁ ++ [.addSystem (c.system x)])).argsAt (c.system x).params ops₂ := by
      unfold moments Scheduler.argsAt
      rw [List.filterMap_map]
      refine List.filterMap_congr fun ops _ => ?_
      simp [after, system]
    rw [hargs]

end Closure

/-- `u32` among the numbers. -/
def numbersU32 : HasU32 numbers := ⟨.u32, rfl, fun _ => rfl⟩

/-- `|x: u8, y: FromU32<u64>| ..`, which adds its arguments up. -/
def adding : Closure numbersU32 where
  params := [.cloned .u8, .fromU32]
  arity := by decide
  Captured := UInt64
  f total args :=
    let x : UInt8 := args.1
    let y : FromU32 UInt64 := args.2.1
    total + x.toUInt64 + y.value

/-- With `1u8` and `2u32`, and two runs. -/
theorem run2_agrees_numbers :
    (((adding.system2 (0 : UInt64)).runs [(after numberOps).resources,
      (after numberOps).resources]).1 = adding.system2 (6 : UInt64)) ∧
    ∃ args, adding.Agrees (0 : UInt64) numberOps [.run, .run] args :=
  ⟨rfl, adding.run2_agrees (0 : UInt64) numberOps [.run, .run]⟩

end CorustHackathon.ParameterInjection
