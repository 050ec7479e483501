import CorustHackathon.Runs
import CorustHackathon.ParameterInjection.Scheduler

/-! # What the scheduler injects

The map of resources forgets the types of its values, and `TypeId` brings them back: after any
calls, what is stored under the `TypeId` of a type is the value of this type that was added last.
So a parameter is missing exactly if no resource of its type was added, a system runs exactly if
none of its parameters is missing, and its arguments are clones of the resources added last. -/

namespace CorustHackathon.ParameterInjection

variable {T : Types}

/-! ### What the calls have added -/

/-- The resource of type `R` that was added last is `v`. -/
def LastAdded (ops : List (Op T)) (R : T.Ty) (v : T.El R) : Prop :=
  ∃ ops₁ ops₂, ops = ops₁ ++ .addResource R v :: ops₂ ∧ ∀ v', .addResource R v' ∉ ops₂

/-- A resource of type `R` was added. -/
def Added (ops : List (Op T)) (R : T.Ty) : Prop := ∃ v, .addResource R v ∈ ops

theorem lastAdded_snoc {ops : List (Op T)} {op : Op T} {R : T.Ty} {v : T.El R} :
    LastAdded (ops ++ [op]) R v ↔
      op = .addResource R v ∨ (LastAdded ops R v ∧ ∀ v', op ≠ .addResource R v') := by
  constructor
  · rintro ⟨ops₁, ops₂, he, hn⟩
    rcases snoc_eq_append_cons.mp he with ⟨-, -, ho⟩ | ⟨ops₃, rfl, rfl⟩
    · exact .inl ho
    · exact .inr ⟨⟨ops₁, ops₃, rfl, fun v' hm => hn v' (List.mem_append_left _ hm)⟩,
        fun v' hv => hn v' (by simp [hv])⟩
  · rintro (rfl | ⟨⟨ops₁, ops₂, rfl, hn⟩, ho⟩)
    · exact ⟨ops, [], rfl, nofun⟩
    · refine ⟨ops₁, ops₂ ++ [op], by simp, fun v' hm => ?_⟩
      rcases List.mem_append.mp hm with hm | hm
      · exact hn v' hm
      · exact ho v' (List.mem_singleton.mp hm).symm

theorem added_snoc {ops : List (Op T)} {op : Op T} {R : T.Ty} :
    Added (ops ++ [op]) R ↔ Added ops R ∨ ∃ v, op = .addResource R v := by
  simp only [Added, List.mem_append, List.mem_singleton, exists_or, eq_comm]

variable [DecidableEq T.TypeId]

/-! ### The map of resources -/

theorem downcastRef_self (R : T.Ty) (v : T.El R) : Any.downcastRef (⟨R, v⟩ : Any T) R = some v := by
  simp [Any.downcastRef]

theorem after_snoc (ops : List (Op T)) (op : Op T) : after (ops ++ [op]) = (after ops).step op := by
  simp [after]

/-- A call other than `add_resource` of the type `R` leaves what is stored under it. -/
theorem lookup_step {s : Scheduler T} {op : Op T} {R : T.Ty} (h : ∀ v, op ≠ .addResource R v) :
    (s.step op).resources.lookup (T.of R) = s.resources.lookup (T.of R) := by
  cases op with
  | addResource R' v' =>
      have hne : T.of R ≠ T.of R' := by
        intro he
        obtain rfl := T.of.injective he
        exact h v' rfl
      exact Finmap.lookup_insert_of_ne _ hne
  | addSystem f | run => rfl

/-- **What is stored under the `TypeId` of a type** is the value of this type that was added
last. -/
theorem lookup_after (ops : List (Op T)) (R : T.Ty) (r : Any T) :
    (after ops).resources.lookup (T.of R) = some r ↔ ∃ v, r = ⟨R, v⟩ ∧ LastAdded ops R v := by
  induction ops using List.reverseRecOn with
  | nil =>
      constructor
      · intro h
        simp [after, Scheduler.default] at h
      · rintro ⟨v, -, ops₁, ops₂, he, -⟩
        simp at he
  | append_singleton ops op ih =>
      rw [after_snoc]
      by_cases h : ∃ v, op = .addResource R v
      · obtain ⟨v, rfl⟩ := h
        simp only [Scheduler.step, Scheduler.addResource, Finmap.lookup_insert, lastAdded_snoc]
        constructor
        · rintro ⟨⟩
          exact ⟨v, rfl, .inl rfl⟩
        · rintro ⟨v', rfl, hv | ⟨-, hv⟩⟩
          · cases hv
            rfl
          · exact absurd rfl (hv v)
      · push Not at h
        rw [lookup_step h, ih]
        simp only [lastAdded_snoc, h, false_or, not_false_eq_true, implies_true, and_true, ne_eq]

theorem lookup_after_none (ops : List (Op T)) (R : T.Ty) :
    (after ops).resources.lookup (T.of R) = none ↔ ¬ Added ops R := by
  induction ops using List.reverseRecOn with
  | nil => simp [after, Scheduler.default, Added]
  | append_singleton ops op ih =>
      rw [after_snoc, added_snoc]
      by_cases h : ∃ v, op = .addResource R v
      · obtain ⟨v, rfl⟩ := h
        simp [Scheduler.step, Scheduler.addResource]
      · rw [lookup_step (not_exists.mp h), ih]
        simp [h]

/-! ### The parameters of a system -/

/-- A parameter is a clone of the resource of its type that was added last. -/
theorem retrieve_after (ops : List (Op T)) (I : T.Ty) (x : T.El I) :
    retrieve (after ops).resources I = some x ↔ ∃ v, LastAdded ops I v ∧ x = T.clone I v := by
  simp only [retrieve, Option.bind_eq_some_iff, lookup_after]
  constructor
  · rintro ⟨_, ⟨v, rfl, hv⟩, hx⟩
    rw [downcastRef_self] at hx
    cases hx
    exact ⟨v, hv, rfl⟩
  · rintro ⟨v, hv, rfl⟩
    exact ⟨_, ⟨v, rfl, hv⟩, by rw [downcastRef_self]; rfl⟩

theorem retrieve_after_none (ops : List (Op T)) (I : T.Ty) :
    retrieve (after ops).resources I = none ↔ ¬ Added ops I := by
  rw [← lookup_after_none]
  cases hl : (after ops).resources.lookup (T.of I) with
  | none => simp [retrieve, hl]
  | some r =>
      obtain ⟨v, rfl, -⟩ := (lookup_after ops I r).mp hl
      simp [retrieve, hl, downcastRef_self]

/-- The arguments are those retrieved for each parameter. -/
theorem inject_eq_some {resources : Resources T} {Is : List T.Ty} {args : Args T Is} :
    inject resources Is = some args ↔ ∀ i, retrieve resources (Is.get i) = some (args.get i) := by
  induction Is with
  | nil => exact iff_of_true rfl nofun
  | cons I Is ih =>
      obtain ⟨x, xs⟩ := args
      constructor
      · intro h i
        simp only [inject] at h
        split at h
        · cases h
        · rename_i y hy
          split at h
          · cases h
          · rename_i ys hys
            cases h
            cases i using Fin.cases with
            | zero => exact hy
            | succ i => exact ih.mp hys i
      · intro h
        have hx : retrieve resources I = some x := h 0
        have hxs : inject resources Is = some xs := ih.mpr fun i => h i.succ
        simp [inject, hx, hxs]

/-- There are none exactly if some parameter is missing. -/
theorem inject_eq_none {resources : Resources T} {Is : List T.Ty} :
    inject resources Is = none ↔ ∃ I ∈ Is, retrieve resources I = none := by
  induction Is with
  | nil => simp [inject]
  | cons I Is ih =>
      cases hI : retrieve resources I with
      | none => simp [inject, hI]
      | some i =>
          cases hIs : inject resources Is with
          | none => simpa [inject, hI, hIs] using ih.mp hIs
          | some is => simpa [inject, hI, hIs] using ih.not.mp (by simp [hIs])

/-- The arguments that the calls `ops` provide for parameters of the types `Is`. -/
def Provides (ops : List (Op T)) (Is : List T.Ty) (args : Args T Is) : Prop :=
  ∀ i, ∃ v, LastAdded ops (Is.get i) v ∧ args.get i = T.clone _ v

theorem inject_after (ops : List (Op T)) (Is : List T.Ty) (args : Args T Is) :
    inject (after ops).resources Is = some args ↔ Provides ops Is args := by
  simp only [inject_eq_some, retrieve_after, Provides]

theorem inject_after_none (ops : List (Op T)) (Is : List T.Ty) :
    inject (after ops).resources Is = none ↔ ∃ I ∈ Is, ¬ Added ops I := by
  simp only [inject_eq_none, retrieve_after_none]

/-! ### The systems in turn -/

theorem runSystems_systems (resources : Resources T) (k : ℕ) (systems : List (System T)) :
    (runSystems resources k systems).1 = systems.map fun s => (s.run resources).1 := by
  induction systems generalizing k with
  | nil => rfl
  | cons s systems ih => simp [runSystems, ih]

/-- The calls of the systems from the number `k` on are in their order. -/
theorem runSystems_bounds (resources : Resources T) (k : ℕ) (systems : List (System T)) :
    ∀ e ∈ (runSystems resources k systems).2, k ≤ e.system ∧ e.system < k + systems.length := by
  induction systems generalizing k with
  | nil => nofun
  | cons s systems ih =>
      intro e he
      simp only [runSystems, List.mem_append, Option.mem_toList, Option.map_eq_some_iff] at he
      rw [List.length_cons]
      rcases he with ⟨args, -, rfl⟩ | he
      · exact ⟨le_rfl, by dsimp only; omega⟩
      · have := ih (k + 1) e he
        omega

theorem runSystems_ordered (resources : Resources T) (k : ℕ) (systems : List (System T)) :
    ((runSystems resources k systems).2.map Invocation.system).Pairwise (· < ·) := by
  induction systems generalizing k with
  | nil => exact List.Pairwise.nil
  | cons s systems ih =>
      rw [runSystems, List.map_append, List.pairwise_append]
      refine ⟨?_, ih (k + 1), fun i hi j hj => ?_⟩
      · cases (s.run resources).2 <;> simp
      · obtain ⟨e, he, rfl⟩ := List.mem_map.mp hj
        have hle := (runSystems_bounds resources (k + 1) systems e he).1
        cases hr : (s.run resources).2 with
        | none => simp [hr] at hi
        | some args =>
            simp only [hr, Option.map_some, Option.toList_some, List.map_cons, List.map_nil,
              List.mem_singleton] at hi
            omega

/-- The calls of the system with the number `k + j`. -/
theorem runSystems_calls (resources : Resources T) (k : ℕ) {systems : List (System T)} {j : ℕ}
    {s : System T} (h : systems[j]? = some s) :
    (runSystems resources k systems).2.filter (·.system == k + j) =
      ((s.run resources).2.map fun args => ⟨k + j, s.params, args⟩).toList := by
  induction systems generalizing k j with
  | nil => cases h
  | cons s' systems ih =>
      rw [runSystems, List.filter_append]
      cases j with
      | zero =>
          obtain rfl : s' = s := by simpa using h
          have hrest :
              (runSystems resources (k + 1) systems).2.filter (·.system == k + 0) = [] := by
            rw [List.filter_eq_nil_iff]
            intro e he
            have := (runSystems_bounds resources (k + 1) systems e he).1
            simp
            omega
          rw [hrest, List.append_nil]
          cases (s'.run resources).2 <;> simp
      | succ j =>
          have hrest := ih (k + 1) (j := j) (by simpa using h)
          rw [Nat.add_right_comm, Nat.add_assoc] at hrest
          rw [hrest]
          cases (s'.run resources).2 <;> simp

/-! ### A run of the scheduler -/

/-- `s'` is the system `s` with another captured state. -/
def System.SameCode (s s' : System T) : Prop := ∃ x, s' = { s with state := x }

/-- The systems in the order they were added. -/
def addedSystems (ops : List (Op T)) : List (System T) :=
  ops.filterMap fun
    | .addSystem f => some f
    | _ => none

omit [DecidableEq T.TypeId] in
theorem System.SameCode.refl (s : System T) : s.SameCode s := ⟨s.state, rfl⟩

theorem System.SameCode.run {s s' : System T} (h : s.SameCode s') (resources : Resources T) :
    s.SameCode (s'.run resources).1 := by
  obtain ⟨x, rfl⟩ := h
  unfold System.run
  split
  · exact ⟨x, rfl⟩
  · exact ⟨_, rfl⟩

theorem systems_after (ops : List (Op T)) :
    List.Forall₂ System.SameCode (addedSystems ops) (after ops).systems := by
  induction ops using List.reverseRecOn with
  | nil => exact .nil
  | append_singleton ops op ih =>
      have hadded : addedSystems (ops ++ [op]) = addedSystems ops ++ addedSystems [op] :=
        List.filterMap_append
      rw [after_snoc, hadded]
      cases op with
      | addResource R v => exact (List.append_nil (addedSystems ops)).symm ▸ ih
      | addSystem f => exact List.rel_append ih (.cons (.refl f) .nil)
      | run =>
          rw [show addedSystems [Op.run] = ([] : List (System T)) from rfl, List.append_nil]
          simp only [Scheduler.step, Scheduler.run, runSystems_systems,
            List.forall₂_map_right_iff]
          exact ih.imp fun _ _ h => h.run _

/-- What a run after the calls `ops` leaves, and the calls that it makes. -/
structure Injects (ops : List (Op T)) (s' : Scheduler T) (log : List (Invocation T)) : Prop where
  /-- The value stored under `TypeId::of::<R>()` is an `R`, so that no downcast fails. -/
  typed : ∀ R r, (after ops).resources.lookup (T.of R) = some r →
    r.type = R ∧ (r.downcastRef R).isSome
  resources : s'.resources = (after ops).resources
  /-- The calls after the run go on from what it leaves. -/
  next : after (ops ++ [.run]) = s'
  /-- The systems are those that were added, in this order. -/
  added : List.Forall₂ System.SameCode (addedSystems ops) (after ops).systems
  length : s'.systems.length = (after ops).systems.length
  /-- A system is called once, with clones of the resources added last, if there are resources
  for all its parameters. -/
  called : ∀ k s, (after ops).systems[k]? = some s → (∀ I ∈ s.params, Added ops I) →
    ∃ args, Provides ops s.params args ∧
      s'.systems[k]? = some { s with state := s.f s.state args } ∧
      log.filter (·.system == k) = [⟨k, s.params, args⟩]
  /-- Otherwise it is not called, and left as it is. -/
  skipped : ∀ k s, (after ops).systems[k]? = some s → (∃ I ∈ s.params, ¬ Added ops I) →
    s'.systems[k]? = some s ∧ log.filter (·.system == k) = []
  /-- The systems are called in their order, and no others are. -/
  ordered : (log.map Invocation.system).Pairwise (· < ·)
  bounded : ∀ e ∈ log, e.system < (after ops).systems.length

/-- **The scheduler injects the right values, all or nothing**: for every sequence of calls and
every run that follows it. -/
theorem scheduler_injects (ops : List (Op T)) :
    Injects ops (after ops).run.1 (after ops).run.2 where
  typed R r hl := by
    obtain ⟨v, rfl, -⟩ := (lookup_after ops R r).mp hl
    exact ⟨rfl, by rw [downcastRef_self]; rfl⟩
  resources := rfl
  next := after_snoc ops .run
  added := systems_after ops
  length := by simp [Scheduler.run, runSystems_systems]
  called k s hs hall := by
    cases hi : inject (after ops).resources s.params with
    | none =>
        obtain ⟨I, hI, hn⟩ := (inject_after_none ops s.params).mp hi
        exact absurd (hall I hI) hn
    | some args =>
        have hrun : s.run (after ops).resources =
            ({ s with state := s.f s.state args }, some args) := by simp [System.run, hi]
        have hcalls := runSystems_calls (after ops).resources 0 hs
        rw [hrun, Nat.zero_add] at hcalls
        refine ⟨args, (inject_after ops s.params args).mp hi, ?_, hcalls⟩
        simp [Scheduler.run, runSystems_systems, hs, hrun]
  skipped k s hs hmissing := by
    have hi := (inject_after_none ops s.params).mpr hmissing
    have hrun : s.run (after ops).resources = (s, none) := by simp [System.run, hi]
    have hcalls := runSystems_calls (after ops).resources 0 hs
    rw [hrun, Nat.zero_add] at hcalls
    refine ⟨?_, hcalls⟩
    simp [Scheduler.run, runSystems_systems, hs, hrun]
  ordered := runSystems_ordered _ _ _
  bounded e he := by
    have := (runSystems_bounds (after ops).resources 0 (after ops).systems e he).2
    rwa [Nat.zero_add] at this

/-! ### The program of the source's `test` -/

/-- The types of its resources, which are `Copy`. -/
inductive Number where
  | u8
  | u32
  | i32
deriving DecidableEq

def numbers : Types where
  Ty := Number
  El
    | .u8 => UInt8
    | .u32 => UInt32
    | .i32 => Int32
  TypeId := Number
  of := .refl Number
  clone _ v := v

instance : DecidableEq numbers.TypeId := inferInstanceAs (DecidableEq Number)

/-- A closure that prints its arguments and captures nothing. -/
def printing (params : List Number) (h : params.length ≤ 5) : System numbers where
  params := params
  arity := h
  Captured := Unit
  state := ()
  f _ _ := ()

/-- `1u8`, `2u32` and `3i32` -/
def numberOps : List (Op numbers) :=
  [.addResource .u8 (1 : UInt8), .addResource .u32 (2 : UInt32), .addResource .i32 (3 : Int32)]

/-- The calls of `test` up to its first `run`. -/
def testOps : List (Op numbers) :=
  numberOps ++ [.addSystem (printing [.u8] (by decide)),
    .addSystem (printing [.u8, .u32] (by decide))]

/-- `1`, and `1 2`. -/
theorem scheduler_injects_test :
    (after testOps).run.2 = [⟨0, [.u8], ((1 : UInt8), ())⟩,
      ⟨1, [.u8, .u32], ((1 : UInt8), (2 : UInt32), ())⟩] ∧
    Injects testOps (after testOps).run.1 (after testOps).run.2 :=
  ⟨rfl, scheduler_injects testOps⟩

end CorustHackathon.ParameterInjection
