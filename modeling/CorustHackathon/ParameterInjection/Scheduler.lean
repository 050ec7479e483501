import Mathlib.Data.Finmap
import Mathlib.Logic.Embedding.Basic

/-! # The scheduler with parameter injection

The `Scheduler` of `parameter_injection/src/lib.rs`: a map from `TypeId` to values of any type, and
systems that are closures with a list of parameter types.  `System.run` looks the parameters up one
by one, and calls the closure when it has them all.

* **Types.** `Types` are the types of a program that can be resources.  A parameter is cloned out of
  the map, so `clone` is what the `Clone` of its type does.  `TypeId::of` is injective on types.
* **Systems.** The traits `IntoSystem` and `System` are implemented by one macro for every number
  of parameters from none to five; here this is one definition over the list of types.
* **Closures.** An `FnMut` is its captured state, and what a call makes of it; a call returns.  The
  arguments of the calls that a run makes are its log.
* **Values.** A clone and a call are functions of the values they are given.  Resources and captures
  that share state through interior mutability, such as an `Rc<Cell<u32>>`, are not of this kind. -/

namespace CorustHackathon.ParameterInjection

/-- The types of a program, with the values of each. -/
structure Types where
  Ty : Type
  El : Ty → Type
  TypeId : Type
  /-- `TypeId::of` -/
  of : Ty ↪ TypeId
  /-- `Clone::clone` of each type. -/
  clone (R : Ty) : El R → El R

section types

variable (T : Types)

/-- `Box<dyn Any>`: a value and its type. -/
structure Any where
  type : T.Ty
  value : T.El type

/-- The arguments of a call with parameters of the types `Is`. -/
def Args : List T.Ty → Type
  | [] => Unit
  | I :: Is => T.El I × Args Is

/-- `FunctionSystem<F, (I0, ..)>` -/
structure System where
  params : List T.Ty
  arity : params.length ≤ 5
  /-- What the closure has captured. -/
  Captured : Type
  state : Captured
  f : Captured → Args T params → Captured

/-- A call of the closure of a system, which is named by its place in `systems`. -/
structure Invocation where
  system : ℕ
  params : List T.Ty
  args : Args T params

end types

variable {T : Types}

namespace Args

/-- The argument at a position. -/
def get : {Is : List T.Ty} → Args T Is → (i : Fin Is.length) → T.El (Is.get i)
  | _ :: _, (x, _), ⟨0, _⟩ => x
  | _ :: _, (_, xs), ⟨i + 1, h⟩ => get xs ⟨i, Nat.lt_of_succ_lt_succ h⟩

end Args

variable [DecidableEq T.TypeId]

/-- `HashMap<TypeId, Box<dyn Any>>` -/
abbrev Resources (T : Types) [DecidableEq T.TypeId] := Finmap fun _ : T.TypeId => Any T

/-- `downcast_ref::<I>()` -/
def Any.downcastRef (r : Any T) (I : T.Ty) : Option (T.El I) :=
  if h : T.of r.type = T.of I then some (T.of.injective h ▸ r.value) else none

/-- `resources.get(&TypeId::of::<I>()).and_then(|r| r.downcast_ref::<I>().cloned())` -/
def retrieve (resources : Resources T) (I : T.Ty) : Option (T.El I) :=
  (resources.lookup (T.of I)).bind fun r => (r.downcastRef I).map (T.clone I)

/-- The `let ... else` of each parameter in turn; the first that is missing returns. -/
def inject (resources : Resources T) : (Is : List T.Ty) → Option (Args T Is)
  | [] => some ()
  | I :: Is =>
      match retrieve resources I with
      | none => none
      | some i =>
          match inject resources Is with
          | none => none
          | some is => some (i, is)

/-- `System::run`, with the arguments of the call, if there is one. -/
def System.run (s : System T) (resources : Resources T) : System T × Option (Args T s.params) :=
  match inject resources s.params with
  | none => (s, none)
  | some args => ({ s with state := s.f s.state args }, some args)

/-- `Scheduler` -/
structure Scheduler (T : Types) [DecidableEq T.TypeId] where
  systems : List (System T)
  resources : Resources T

/-- `for s in self.systems.iter_mut() { s.run(&self.resources); }`, where the first system is the
one with the number `k`. -/
def runSystems (resources : Resources T) (k : ℕ) :
    List (System T) → List (System T) × List (Invocation T)
  | [] => ([], [])
  | s :: systems =>
      let r := s.run resources
      let rest := runSystems resources (k + 1) systems
      (r.1 :: rest.1, (r.2.map fun args => ⟨k, s.params, args⟩).toList ++ rest.2)

namespace Scheduler

/-- `Scheduler::default` -/
def default : Scheduler T := ⟨[], ∅⟩

/-- `Scheduler::run`, with the log of the calls it makes. -/
def run (s : Scheduler T) : Scheduler T × List (Invocation T) :=
  ({ s with systems := (runSystems s.resources 0 s.systems).1 },
    (runSystems s.resources 0 s.systems).2)

def addResource (s : Scheduler T) (R : T.Ty) (res : T.El R) : Scheduler T :=
  { s with resources := s.resources.insert (T.of R) ⟨R, res⟩ }

def addSystem (s : Scheduler T) (f : System T) : Scheduler T :=
  { s with systems := s.systems ++ [f] }

end Scheduler

/-- A call on the scheduler. -/
inductive Op (T : Types) where
  | addResource (R : T.Ty) (res : T.El R)
  | addSystem (f : System T)
  | run

def Scheduler.step (s : Scheduler T) : Op T → Scheduler T
  | .addResource R res => s.addResource R res
  | .addSystem f => s.addSystem f
  | .run => s.run.1

/-- A new scheduler after the calls `ops`. -/
def after (ops : List (Op T)) : Scheduler T := ops.foldl Scheduler.step .default

end CorustHackathon.ParameterInjection
