import CorustHackathon.ParameterInjection.Injection

/-! # What one system sees of a scheduler

The systems of a scheduler share its resources and nothing else, and they only read them: this is
where it matters that no resource and no capture is shared through interior mutability.  So the
history of a system, over any calls on the scheduler, is told without the other systems: from when
it was added on, each run at which there are resources of all the types it asks for is one call of
its closure, with clones of the resources added last, and there are no other calls.  A scheduler
that has this system alone, and gets the same resources and runs, makes the same calls of it and
leaves it in the same state. -/

namespace CorustHackathon.ParameterInjection

variable {T : Types}

/-- What was called before each run among the calls `ops`. -/
def beforeRuns : List (Op T) → List (List (Op T))
  | [] => []
  | .run :: ops => [] :: (beforeRuns ops).map (.run :: ·)
  | op :: ops => (beforeRuns ops).map (op :: ·)

/-- The calls without those that add systems. -/
def withoutSystems (ops : List (Op T)) : List (Op T) :=
  ops.filter fun
    | .addSystem _ => false
    | _ => true

/-- The arguments that a system with parameters of the types `Is` gets at runs, each given by the
calls before it: none at a run where a parameter is missing. -/
inductive Served (Is : List T.Ty) : List (List (Op T)) → List (Args T Is) → Prop
  | nil : Served Is [] []
  | called {ops : List (Op T)} {runs : List (List (Op T))} {a : Args T Is}
      {args : List (Args T Is)} :
      Provides ops Is a → Served Is runs args → Served Is (ops :: runs) (a :: args)
  | skipped {ops : List (Op T)} {runs : List (List (Op T))} {args : List (Args T Is)} :
      (∃ I ∈ Is, ¬ Added ops I) → Served Is runs args → Served Is (ops :: runs) args

variable [DecidableEq T.TypeId]

namespace Scheduler

/-- The calls of closures that a call on the scheduler makes. -/
def calls (s : Scheduler T) : Op T → List (Invocation T)
  | .run => s.run.2
  | _ => []

/-- The calls of closures that the calls `ops` make, in their order. -/
def log (s : Scheduler T) : List (Op T) → List (Invocation T)
  | [] => []
  | op :: ops => s.calls op ++ (s.step op).log ops

/-- The arguments for parameters of the types `Is` at the runs among `ops`. -/
def argsAt (s : Scheduler T) (Is : List T.Ty) (ops : List (Op T)) : List (Args T Is) :=
  (beforeRuns ops).filterMap fun ops' => inject (ops'.foldl step s).resources Is

/-! ### One call after another -/

theorem log_append (s : Scheduler T) (ops ops' : List (Op T)) :
    s.log (ops ++ ops') = s.log ops ++ (ops.foldl step s).log ops' := by
  induction ops generalizing s with
  | nil => rfl
  | cons op ops ih => simp only [List.cons_append, log, List.foldl_cons, List.append_assoc, ih]

theorem argsAt_run (s : Scheduler T) (Is : List T.Ty) (ops : List (Op T)) :
    s.argsAt Is (.run :: ops) = (inject s.resources Is).toList ++ s.run.1.argsAt Is ops := by
  unfold argsAt
  simp only [beforeRuns, List.filterMap_cons, List.filterMap_map, List.foldl_nil]
  cases inject s.resources Is <;> rfl

theorem argsAt_addResource (s : Scheduler T) (Is : List T.Ty) (R : T.Ty) (v : T.El R)
    (ops : List (Op T)) :
    s.argsAt Is (.addResource R v :: ops) = (s.addResource R v).argsAt Is ops := by
  simp only [argsAt, beforeRuns, List.filterMap_map]
  rfl

theorem argsAt_addSystem (s : Scheduler T) (Is : List T.Ty) (f : System T) (ops : List (Op T)) :
    s.argsAt Is (.addSystem f :: ops) = (s.addSystem f).argsAt Is ops := by
  simp only [argsAt, beforeRuns, List.filterMap_map]
  rfl

/-- The arguments are those of a scheduler with the same resources, whatever systems either has or
is given. -/
theorem argsAt_withoutSystems {s s' : Scheduler T} (h : s.resources = s'.resources)
    (Is : List T.Ty) (ops : List (Op T)) :
    s.argsAt Is ops = s'.argsAt Is (withoutSystems ops) := by
  induction ops generalizing s s' with
  | nil => rfl
  | cons op ops ih =>
      cases op with
      | addResource R v =>
          have hr : (s.addResource R v).resources = (s'.addResource R v).resources := by
            simp only [addResource, h]
          rw [argsAt_addResource, ih hr]
          exact (argsAt_addResource s' Is R v (withoutSystems ops)).symm
      | addSystem f =>
          rw [argsAt_addSystem]
          exact ih (s := s.addSystem f) h
      | run =>
          have hr : s.run.1.resources = s'.run.1.resources := h
          rw [argsAt_run, ih hr, h]
          exact (argsAt_run s' Is (withoutSystems ops)).symm

/-! ### One system -/

theorem run_systems {s : Scheduler T} {k : ℕ} {f : System T} (h : s.systems[k]? = some f) :
    s.run.1.systems[k]? = some (f.run s.resources).1 := by
  simp [Scheduler.run, runSystems_systems, h]

/-- A run at which a parameter is missing. -/
theorem run_skips {s : Scheduler T} {k : ℕ} {f : System T} (h : s.systems[k]? = some f)
    (hi : inject s.resources f.params = none) :
    s.run.1.systems[k]? = some f ∧ s.run.2.filter (·.system == k) = [] := by
  have hrun : f.run s.resources = (f, none) := by simp [System.run, hi]
  have hs := run_systems h
  have hcalls := runSystems_calls s.resources 0 h
  rw [hrun] at hs hcalls
  rw [Nat.zero_add] at hcalls
  exact ⟨hs, hcalls⟩

/-- A run at which there are all the parameters. -/
theorem run_calls {s : Scheduler T} {k : ℕ} {f : System T} (h : s.systems[k]? = some f)
    {args : Args T f.params} (hi : inject s.resources f.params = some args) :
    s.run.1.systems[k]? = some { f with state := f.f f.state args } ∧
      s.run.2.filter (·.system == k) = [⟨k, f.params, args⟩] := by
  have hrun : f.run s.resources = ({ f with state := f.f f.state args }, some args) := by
    simp [System.run, hi]
  have hs := run_systems h
  have hcalls := runSystems_calls s.resources 0 h
  rw [hrun] at hs hcalls
  rw [Nat.zero_add] at hcalls
  exact ⟨hs, hcalls⟩

theorem addSystem_systems {s : Scheduler T} {k : ℕ} {f : System T} (h : s.systems[k]? = some f)
    (g : System T) : (s.addSystem g).systems[k]? = some f := by
  obtain ⟨hk, -⟩ := List.getElem?_eq_some_iff.mp h
  show (s.systems ++ [g])[k]? = some f
  rw [List.getElem?_append_left hk, h]

/-- **The state of a system** is what its closure makes of the arguments at the runs, one after the
other. -/
theorem systems_foldl {s : Scheduler T} {k : ℕ} {f : System T} (h : s.systems[k]? = some f)
    (ops : List (Op T)) : (ops.foldl step s).systems[k]? =
      some { f with state := (s.argsAt f.params ops).foldl f.f f.state } := by
  induction ops generalizing s f with
  | nil => exact h
  | cons op ops ih =>
      rw [List.foldl_cons]
      cases op with
      | addResource R v =>
          rw [argsAt_addResource]
          exact ih (s := s.addResource R v) h
      | addSystem g =>
          rw [argsAt_addSystem]
          exact ih (addSystem_systems h g)
      | run =>
          rw [argsAt_run, List.foldl_append]
          cases hi : inject s.resources f.params with
          | none => exact ih (run_skips h hi).1
          | some args => exact ih (run_calls h hi).1

/-- **The calls of a system** are those with these arguments. -/
theorem log_filter {s : Scheduler T} {k : ℕ} {f : System T} (h : s.systems[k]? = some f)
    (ops : List (Op T)) : (s.log ops).filter (·.system == k) =
      (s.argsAt f.params ops).map (⟨k, f.params, ·⟩) := by
  induction ops generalizing s f with
  | nil => rfl
  | cons op ops ih =>
      rw [log, List.filter_append]
      cases op with
      | addResource R v =>
          rw [argsAt_addResource]
          exact ih (s := s.addResource R v) h
      | addSystem g =>
          rw [argsAt_addSystem]
          exact ih (addSystem_systems h g)
      | run =>
          rw [argsAt_run, List.map_append]
          cases hi : inject s.resources f.params with
          | none =>
              obtain ⟨hs, hcalls⟩ := run_skips h hi
              exact congrArg₂ (· ++ ·) hcalls (ih hs)
          | some args =>
              obtain ⟨hs, hcalls⟩ := run_calls h hi
              have hrest := ih (f := { f with state := f.f f.state args }) hs
              exact congrArg₂ (· ++ ·) hcalls hrest

/-! ### The other systems -/

theorem length_step (s : Scheduler T) (op : Op T) :
    s.systems.length ≤ (s.step op).systems.length := by
  cases op with
  | addResource R v => exact le_rfl
  | addSystem f => simp [step, addSystem]
  | run => simp [step, Scheduler.run, runSystems_systems]

theorem length_foldl (s : Scheduler T) (ops : List (Op T)) :
    s.systems.length ≤ (ops.foldl step s).systems.length := by
  induction ops generalizing s with
  | nil => exact le_rfl
  | cons op ops ih => exact (s.length_step op).trans (ih (s.step op))

/-- The systems that are called have been added. -/
theorem log_bounds (s : Scheduler T) (ops : List (Op T)) :
    ∀ e ∈ s.log ops, e.system < (ops.foldl step s).systems.length := by
  induction ops generalizing s with
  | nil => nofun
  | cons op ops ih =>
      intro e he
      rcases List.mem_append.mp he with he | he
      · have hs : e.system < s.systems.length := by
          cases op with
          | addResource R v => cases he
          | addSystem f => cases he
          | run => simpa using (runSystems_bounds s.resources 0 s.systems e he).2
        have hle := s.length_foldl (op :: ops)
        omega
      · exact ih (s.step op) e he

end Scheduler

/-! ### A system alone -/

/-- What is injected after each of the calls `runs`. -/
theorem served_inject (Is : List T.Ty) (runs : List (List (Op T))) :
    Served Is runs (runs.filterMap fun ops => inject (after ops).resources Is) := by
  induction runs with
  | nil => exact .nil
  | cons ops runs ih =>
      rw [List.filterMap_cons]
      cases hi : inject (after ops).resources Is with
      | none => exact .skipped ((inject_after_none ops Is).mp hi) ih
      | some a => exact .called ((inject_after ops Is a).mp hi) ih

theorem served_argsAt (ops₁ : List (Op T)) (Is : List T.Ty) (ops : List (Op T)) :
    Served Is ((beforeRuns ops).map (ops₁ ++ ·)) ((after ops₁).argsAt Is ops) := by
  have h := served_inject Is ((beforeRuns ops).map (ops₁ ++ ·))
  rw [List.filterMap_map] at h
  have hargs : (after ops₁).argsAt Is ops =
      (beforeRuns ops).filterMap
        ((fun ops' => inject (after ops').resources Is) ∘ (ops₁ ++ ·)) := by
    simp [Scheduler.argsAt, after, Function.comp_def]
  rwa [hargs]

omit [DecidableEq T.TypeId] in
theorem addedSystems_withoutSystems (ops : List (Op T)) :
    addedSystems (withoutSystems ops) = [] := by
  unfold addedSystems withoutSystems
  rw [List.filterMap_filter, List.filterMap_eq_nil_iff]
  intro op _
  cases op <;> rfl

theorem after_resources (ops : List (Op T)) :
    (after (withoutSystems ops)).resources = (after ops).resources := by
  induction ops using List.reverseRecOn with
  | nil => rfl
  | append_singleton ops op ih =>
      unfold withoutSystems at ih ⊢
      rw [List.filter_append, after_snoc]
      cases op with
      | addResource R v =>
          show (after (_ ++ [Op.addResource R v])).resources = _
          rw [after_snoc]
          simp only [Scheduler.step, Scheduler.addResource, ih]
      | addSystem f =>
          show (after (_ ++ [])).resources = _
          rw [List.append_nil, ih]
          rfl
      | run =>
          show (after (_ ++ [Op.run])).resources = _
          rw [after_snoc]
          exact ih

/-- The history of the system `f` that is added between the calls `ops₁` and `ops₂`. -/
structure Isolated (ops₁ : List (Op T)) (f : System T) (ops₂ : List (Op T))
    (args : List (Args T f.params)) : Prop where
  /-- It is called at each run since, where it can be. -/
  served : Served f.params ((beforeRuns ops₂).map (ops₁ ++ .addSystem f :: ·)) args
  /-- These are its calls, and its state is what they leave. -/
  log : ((Scheduler.default : Scheduler T).log (ops₁ ++ .addSystem f :: ops₂)).filter
    (·.system == (addedSystems ops₁).length) =
      args.map (⟨(addedSystems ops₁).length, f.params, ·⟩)
  state : (after (ops₁ ++ .addSystem f :: ops₂)).systems[(addedSystems ops₁).length]? =
    some { f with state := args.foldl f.f f.state }
  /-- A scheduler without the other systems makes no other calls of it. -/
  log_alone : (Scheduler.default : Scheduler T).log
    (withoutSystems ops₁ ++ .addSystem f :: withoutSystems ops₂) = args.map (⟨0, f.params, ·⟩)
  state_alone : (after (withoutSystems ops₁ ++ .addSystem f :: withoutSystems ops₂)).systems =
    [{ f with state := args.foldl f.f f.state }]

theorem systems_added (ops₁ : List (Op T)) (f : System T) :
    (after (ops₁ ++ [.addSystem f])).systems[(addedSystems ops₁).length]? = some f := by
  rw [after_snoc, (systems_after ops₁).length_eq]
  simp [Scheduler.step, Scheduler.addSystem]

theorem after_append_cons (ops₁ : List (Op T)) (op : Op T) (ops₂ : List (Op T)) :
    after (ops₁ ++ op :: ops₂) = ops₂.foldl Scheduler.step (after (ops₁ ++ [op])) := by
  simp [after]

/-- The calls of a system since it was added. -/
theorem log_filter_added (ops₁ : List (Op T)) (f : System T) (ops₂ : List (Op T)) :
    ((Scheduler.default : Scheduler T).log (ops₁ ++ .addSystem f :: ops₂)).filter
        (·.system == (addedSystems ops₁).length) =
      ((after (ops₁ ++ [.addSystem f])).argsAt f.params ops₂).map
        (⟨(addedSystems ops₁).length, f.params, ·⟩) := by
  have hearlier : ((Scheduler.default : Scheduler T).log ops₁).filter
      (·.system == (addedSystems ops₁).length) = [] := by
    rw [List.filter_eq_nil_iff]
    intro e he
    have hlt : e.system < (after ops₁).systems.length := Scheduler.log_bounds _ _ e he
    rw [← (systems_after ops₁).length_eq] at hlt
    simp only [beq_iff_eq]
    omega
  rw [Scheduler.log_append, List.filter_append, hearlier, List.nil_append]
  have hadd : (after (ops₁ ++ [.addSystem f])) = (after ops₁).addSystem f := after_snoc ops₁ _
  have hf := Scheduler.log_filter (systems_added ops₁ f) ops₂
  rw [hadd] at hf ⊢
  exact hf

/-- **The systems are isolated from each other**: the history of each is that of a scheduler that
has it alone. -/
theorem systems_isolated (ops₁ : List (Op T)) (f : System T) (ops₂ : List (Op T)) :
    ∃ args, Isolated ops₁ f ops₂ args := by
  have halone : (after (ops₁ ++ [.addSystem f])).argsAt f.params ops₂ =
      (after (withoutSystems ops₁ ++ [.addSystem f])).argsAt f.params (withoutSystems ops₂) := by
    refine Scheduler.argsAt_withoutSystems ?_ f.params ops₂
    rw [after_snoc, after_snoc]
    exact (after_resources ops₁).symm
  have hfirst : (addedSystems (withoutSystems ops₁)).length = 0 := by
    rw [addedSystems_withoutSystems, List.length_nil]
  have hlength : (after (withoutSystems ops₁ ++ .addSystem f :: withoutSystems ops₂)).systems.length
      = 1 := by
    rw [← (systems_after _).length_eq]
    have happend : addedSystems (withoutSystems ops₁ ++ .addSystem f :: withoutSystems ops₂) =
        addedSystems (withoutSystems ops₁) ++ f :: addedSystems (withoutSystems ops₂) :=
      List.filterMap_append
    rw [happend, addedSystems_withoutSystems, addedSystems_withoutSystems]
    rfl
  refine ⟨(after (ops₁ ++ [.addSystem f])).argsAt f.params ops₂, ?_, ?_, ?_, ?_, ?_⟩
  · have h := served_argsAt (ops₁ ++ [.addSystem f]) f.params ops₂
    simpa using h
  · exact log_filter_added ops₁ f ops₂
  · rw [after_append_cons]
    exact Scheduler.systems_foldl (systems_added ops₁ f) ops₂
  · have h := log_filter_added (withoutSystems ops₁) f (withoutSystems ops₂)
    rw [hfirst, ← halone] at h
    rw [← h, eq_comm, List.filter_eq_self]
    intro e he
    have hlt := Scheduler.log_bounds _ _ e he
    rw [show List.foldl _ _ _ = after _ from rfl, hlength] at hlt
    simp only [beq_iff_eq]
    omega
  · have h := Scheduler.systems_foldl (systems_added (withoutSystems ops₁) f) (withoutSystems ops₂)
    rw [← after_append_cons, hfirst, ← halone] at h
    obtain ⟨f', hf'⟩ := List.length_eq_one_iff.mp hlength
    rw [hf'] at h ⊢
    exact congrArg (fun g => [g]) (Option.some.inj h)

end CorustHackathon.ParameterInjection
