import CorustHackathon.TaskManager.Endings

/-! # Cancellation is never missed

`cancel(k)` looks into `waiting` and then into `ongoing`, under two locks that it takes one after
the other, while a starting future moves `k` from the one to the other.  In the lives of the
abstract manager the argument is short: a task that is not `waiting` when `cancel` has looked
there is at least `running` or `discarded` from then on, and a `running` task has its context in
`ongoing` whenever `cancel` can look there.

A key is a name only while `KEY` is drawn at most `2 ^ 64` times; behind that a `cancel` can
signal the token of another task with the same key. -/

namespace CorustHackathon.TaskManager

open Function (update)
open Spec (Life)

variable {s s' : Sys} {a : Label}

/-- The future has left its `select!` and removed its context, or is about to. -/
def Fut.left : Fut → Bool
  | lockRemove _ | removeOngoing _ => true
  | f => f.finished

/-- The task `d` was removed from `waiting` by a `cancel`: in every continuation its future takes
the early return, and no callback is ever made on it. -/
structure TakenBack (tr : List Label) (s : Sys) (d : ℕ) : Prop where
  removed : ∃ c k, .removed c k d ∈ tr
  early : ∀ {tr' s'}, Run Step s tr' s' → s'.KEY ≤ usizeSize →
    (s'.fut d).before = true ∨ (s'.fut d).missed = true
  silent : ∀ {tr' s'}, Run Step s tr' s' → callbacks (tr ++ tr') d = []

/-- The token in the context of the key of `d` is cancelled, and is the one that the future with
the task `d` waits for. -/
structure Signalled (s : Sys) (d : ℕ) : Prop where
  entry : s.ongoing.lookup (keyOf d) = some d
  cancelled : s.cancelled d = true
  own : (s.fut d).box = some d

/-! ### Where a `cancel` is -/

/-- The key that a `cancel` has not found in `waiting`. -/
def Call.looking : Call → Option ℕ
  | readOngoing k | get k => some k
  | _ => none

/-- A `cancel` goes on to `ongoing` when it has not found its key in `waiting`. -/
theorem Step.looking {c k : ℕ} (h : Step s a s') (hc : (s'.call c).looking = some k) :
    (s.call c).looking = some k ∨ s.waiting.lookup k = none := by
  rcases h.call_cases c with he | h
  · exact .inl (he ▸ hc)
  · cases h with
    | notWaiting h hl =>
        simp only [Function.update_self, Call.looking, Option.some.injEq] at hc
        exact .inr (hc ▸ hl)
    | readOngoing hp => left; simpa [hp, Call.looking] using hc
    | callSpawn | fetchAdd | lockInsert | insert | spawnOk | spawnErr | callCancel
    | lockRemove | removed | signalled | notFound => simp [Call.looking] at hc

/-- What a `cancel` has not found in `waiting` has left it for good. -/
theorem stage_of_looking {n KEY c c' d : ℕ} {tr₀ tr₁ : List Label} {s₀ s₁ : Sys}
    (h₀ : Run Step (init n KEY) tr₀ s₀) (hd : .spawnOk c' d ∈ tr₀)
    (hc₀ : (s₀.call c).looking = none) (h₁ : Run Step s₀ tr₁ s₁) (hK : s₁.KEY ≤ usizeSize)
    (hc : (s₁.call c).looking = some (keyOf d)) : 3 ≤ (lives (tr₀ ++ tr₁) d).stage := by
  revert hK hc
  refine h₁.invariant (I := fun tr₁ s₁ => s₁.KEY ≤ usizeSize →
    (s₁.call c).looking = some (keyOf d) → 3 ≤ (lives (tr₀ ++ tr₁) d).stage) ?_ ?_
  · intro _ hc
    rw [hc₀] at hc
    cases hc
  · intro tr s a s' hr ih hs hK hc
    have hK₁ := hs.KEY_le.trans hK
    have hrun := h₀.trans hr
    have hmono := Spec.stage_le_of_run (refines_from hrun (.single hs) hK) d
    rw [← List.append_assoc]
    refine le_trans ?_ hmono
    rcases hs.looking hc with hc | hl
    · exact ih hK₁ hc
    · have hstage := stage_of_spawned hrun hK₁ (.inr (List.mem_append_left _ hd))
      have hF := (refines hrun hK₁).2.1 d
      cases hA : lives (tr₀ ++ tr) d with
      | unborn | drawn => rw [hA] at hstage; simp [Life.stage] at hstage
      | waiting =>
          rw [hA] at hF
          have hF : s.waiting.lookup (keyOf d) = some d := hF
          rw [hl] at hF
          cases hF
      | running f => cases f <;> simp [Life.stage]
      | discarded | done => simp [Life.stage]

/-! ### What has become of the task -/

theorem Fut.box_of_early {f : Fut} (h : f.before = true ∨ f.missed = true) : f.box = none := by
  cases f with
  | drop e | done e => cases e <;> simp_all [Fut.before, Fut.missed, Fut.box]
  | _ => simp_all [Fut.before, Fut.missed, Fut.box]

/-- Nobody has taken a discarded task. -/
theorem Fits.untaken {d : ℕ} (hF : Fits s d .discarded) (hI : Inv s) (hK : s.KEY ≤ usizeSize)
    (t : ℕ) : (s.fut t).box ≠ some d := fun ht => by
  have htd : d = t := hI.boxes.box_eq hI.mail hK ht
  subst htd
  rw [Fut.box_of_early hF.2.1] at ht
  cases ht

/-- A discarded task is out of reach. -/
theorem Quiet.of_discarded {d : ℕ} (hI : Inv s) (hK : s.KEY ≤ usizeSize)
    (hF : Fits s d .discarded) : Quiet d s :=
  ⟨hF.2.2.2, hF.2.2.1, fun k hk => hF.1 (by rwa [hI.boxes.waiting_key hk]),
    fun t ht => absurd ht (hF.untaken hI hK t)⟩

/-- So is a task whose future has left its `select!`. -/
theorem Quiet.of_past {t b : ℕ} (hI : Inv s) (hb : (s.fut t).box = some b)
    (hp : (s.fut t).past = true) : Quiet b s :=
  ⟨hI.boxes.box_lt hb, fun _ => hI.boxes.box_delivered hb, fun _ => hI.boxes.box_gone hb,
    fun _ hu => hI.boxes.box_inj hb hu ▸ hp⟩

/-- A task that was discarded before any `Drop` was taken back by a `cancel`. -/
theorem TakenBack.of_lives {n KEY d : ℕ} {tr : List Label} (h : Run Step (init n KEY) tr s)
    (hK : s.KEY ≤ usizeSize) (ha : s.dropping = .alive) (hd : lives tr d = .discarded) :
    TakenBack tr s d := by
  have hI := Inv.of_run h
  have hF := (refines h hK).2.1 d
  rw [hd] at hF
  have hQ := Quiet.of_discarded hI hK hF
  refine ⟨?_, fun {tr' s'} hr hK' => ?_, fun {tr' s'} hr => ?_⟩
  · obtain ⟨x, hx, hdis⟩ := discards_of_run h hK hd
    cases x with
    | removed c k b =>
        rw [Label.discards] at hdis
        exact ⟨c, k, hdis ▸ hx⟩
    | drain w =>
        have := rank_of_drain h hx
        simp [ha, Dropping.rank] at this
    | _ => exact absurd hdis id
  · have hd' := Spec.discarded_of_run (refines_from h hr hK') hd
    have hF' := (refines (h.trans hr) hK').2.1 d
    rw [hd'] at hF'
    exact hF'.2.1
  · rw [callbacks_append, silent_of_run h (hF.untaken hI hK), (hQ.run hI hr).2]
    rfl

/-- While a reader of `ongoing` is there, a key that is not in it is that of a task that was
discarded or has removed itself. -/
theorem Sim.not_found {A : Spec.State ℕ} {c d : ℕ} (hS : Sim A s) (hI : Inv s)
    (hR : Registered s) (hc : s.readsOngoing (.caller c))
    (hl : s.ongoing.lookup (keyOf d) = none) (hA : 3 ≤ (A d).stage) :
    A d = .discarded ∨ (s.fut d).finished = true := by
  have hF := hS d
  cases hAd : A d with
  | unborn | drawn | waiting => rw [hAd] at hA; simp [Life.stage] at hA
  | discarded => exact .inl rfl
  | running f =>
      rw [hAd] at hF
      have hent : (s.fut d).entered = true := by
        have hr := hF.1
        have hnot : ¬ s.writesOngoing (.future d) := fun hw => hI.locks.ongoing.write_not_read hw hc
        revert hr hnot
        cases hfd : s.fut d <;> simp [Fut.running, hfd]
      have := hR (.inl hent)
      rw [hl] at this
      cases this
  | done =>
      rw [hAd] at hF
      rcases Bool.or_eq_true_iff.mp hF with hf | hp
      · exact .inr hf
      · have := hR (.inr hp)
        rw [hl] at this
        cases this

/-! ### The contract of `cancel` -/

theorem Fut.past_of_finished {f : Fut} (h : f.finished = true) : f.past = true := by
  cases f <;> simp_all [Fut.finished, Fut.past]

theorem Fut.left_of_finished {f : Fut} (h : f.finished = true) : f.left = true := by
  cases f <;> simp_all [Fut.finished, Fut.left]

/-- **Cancellation is never missed**: when a `cancel` of a key that `spawn_task` had returned before
has returned, the task was taken back before its start, or its own token is cancelled, or its
future has left the `select!`; and a task that was found in neither collection gets no callback
any more.  For runs in which `KEY` is drawn at most `2 ^ 64` times. -/
theorem cancel_never_missed {n KEY c c' d : ℕ} {tr tr₀ tr₁ : List Label}
    (h : Run Step (init n KEY) tr s) (htr : tr = tr₀ ++ .callCancel c (keyOf d) :: (tr₁ ++ [a]))
    (hd : .spawnOk c' d ∈ tr₀) (ha : a.cancelReturns c (keyOf d)) (hK : s.KEY ≤ usizeSize) :
    (TakenBack tr s d ∨ Signalled s d ∨ (s.fut d).left = true) ∧
      (a = .notFound c (keyOf d) → ∀ tr' s', Run Step s tr' s' → callbacks tr' d = []) := by
  subst htr
  obtain ⟨m₀, m₁, h₀, hs₀, htail⟩ := h.split_at
  obtain ⟨m, h₁, hs⟩ := htail.last
  have hKm := hs.KEY_le.trans hK
  have hI := Inv.of_run h
  -- the run up to the return
  have hrun := (h₀.snoc hs₀).trans h₁
  obtain ⟨_, hS, hR⟩ := refines hrun hKm
  have hIm := Inv.of_run hrun
  have hcall := hs.callStep (Label.actor_of_returns ha)
  have hdlt : d < usizeSize := (drawn_of_spawnOk h₀ hd).trans_le
    ((KEY_le_of_run (.cons hs₀ h₁)).trans hKm)
  have hkey : keyOf d = d := keyOf_of_lt hdlt
  have htrace : tr₀ ++ .callCancel c (keyOf d) :: (tr₁ ++ [a]) =
      tr₀ ++ [.callCancel c (keyOf d)] ++ tr₁ ++ [a] := by simp
  rw [htrace] at h ⊢
  rcases ha with ⟨b, rfl⟩ | ⟨t, rfl⟩ | rfl
  · cases hcall with
    | removed hc hl =>
        have hb : b = d := (hIm.boxes.waiting_eq hKm hl).trans hkey
        subst hb
        have halive : m.dropping = .alive := alive_of_run hrun (c := c) (by simp [hc])
        refine ⟨.inl (.of_lives h hK halive ?_), fun he => by cases he⟩
        rw [lives_snoc]
        simp [Label.ops, Spec.Op.apply]
  · cases hcall with
    | signalled hc hl =>
        have ht : t = d := (hIm.contexts.ongoing_eq hIm.mail hKm hl).trans hkey
        subst ht
        obtain ⟨b, hb⟩ := Fut.box_of_started (hIm.contexts.started hl)
        have hbt : b = t := hIm.boxes.box_eq hIm.mail hKm hb
        exact ⟨.inr (.inl ⟨hl, by simp, hbt ▸ hb⟩), fun he => by cases he⟩
  · cases hcall with
    | notFound hc hl =>
        have hstage := stage_of_looking (h₀.snoc hs₀) (List.mem_append_left _ hd) (c := c)
          (by cases hs₀.callStep rfl; simp [Call.looking]) h₁ hKm (by rw [hc]; rfl)
        rcases hS.not_found hIm (fun {t} => hR) (c := c) (by simp [hc]) hl hstage with hd' | hfin
        · have halive : m.dropping = .alive := alive_of_run hrun (c := c) (by simp [hc])
          have hT := TakenBack.of_lives h hK halive (by rw [lives_snoc]; exact hd')
          refine ⟨.inl hT, fun _ tr' s' hr => ?_⟩
          have hnil := hT.silent hr
          rw [callbacks_append] at hnil
          exact (List.append_eq_nil_iff.mp hnil).2
        · have hpast : (m.fut d).past = true := Fut.past_of_finished hfin
          obtain ⟨b, hb⟩ := Fut.box_of_started (f := m.fut d) (by simp [Fut.started, hfin])
          have hbd : b = d := hIm.boxes.box_eq hIm.mail hKm hb
          subst hbd
          refine ⟨.inr (.inr (Fut.left_of_finished hfin)), fun _ tr' s' hr => ?_⟩
          exact ((Quiet.of_past hI hb hpast).run hI hr).2

/-- A task that is cancelled while it runs. -/
theorem cancel_never_missed_running :
    Signalled { (init 1 0).built.launched with cancelled := update (fun _ => false) 0 true } 0 := by
  have h := (built_run 1 0).trans (launch_run (.built 1 0 0) Nat.one_pos)
  have h' := h.trans
    (cancel_run (c := 0) (k := 0) (t := 0) rfl rfl rfl rfl (by decide) (by decide))
  have htr : [.built] ++ launchTrace 0 0 ++ cancelTrace 0 0 0 =
      ([.built] ++ launchTrace 0 0) ++ .callCancel 0 (keyOf 0) ::
        ([.lockRemove 0 0, .notWaiting 0 0, .readOngoing 0 0] ++ [.signalled 0 0 0]) := rfl
  have hd : .spawnOk 0 0 ∈ [.built] ++ launchTrace 0 0 := by decide
  rcases (cancel_never_missed h' htr hd (.inr (.inl ⟨0, rfl⟩)) (by decide)).1 with hr | hs | hl
  · obtain ⟨c, k, hm⟩ := hr.removed
    simp [launchTrace, spawnTrace, startTrace, cancelTrace] at hm
  · exact hs
  · cases hl

/-- **After `2 ^ 64` draws a cancellation can be missed**: a running task and a later one with the
same key, both in their `select!`.  The `cancel` signals the token of the first, and the second
stays uncancelled in its `select!`. -/
theorem cancel_missed_after_wrap : ∃ tr tr₀ tr₁ a s, Run Step (init 2 0) tr s ∧
    tr = tr₀ ++ .callCancel 0 (keyOf usizeSize) :: (tr₁ ++ [a]) ∧
    .spawnOk 0 usizeSize ∈ tr₀ ∧ a.cancelReturns 0 (keyOf usizeSize) ∧
    ¬ (TakenBack tr s usizeSize ∨ Signalled s usizeSize ∨ (s.fut usizeSize).left = true) ∧
    s.cancelled usizeSize = false ∧ s.fut usizeSize = .between usizeSize true := by
  have h := wrapped_run.trans
    (cancel_run (c := 0) (k := 0) (t := 0) rfl rfl rfl rfl (by decide) (by decide))
  refine ⟨_, wrappedTrace, [.lockRemove 0 0, .notWaiting 0 0, .readOngoing 0 0],
    .signalled 0 0 0, _, h, rfl, ?_, .inr (.inl ⟨0, rfl⟩), ?_, rfl, rfl⟩
  · exact List.mem_append_right _ (by simp [launchTrace, spawnTrace])
  · rintro (hr | hs | hl)
    · obtain ⟨c, k, hm⟩ := hr.removed
      rcases List.mem_append.mp hm with hm | hm
      · rcases mem_wrappedTrace hm with hm | hm | hm | hm
        · cases hm
        · cases hm
        · simp [launchTrace, spawnTrace, startTrace] at hm
        · simp [launchTrace, spawnTrace, startTrace] at hm
      · simp [cancelTrace] at hm
    · exact absurd hs.cancelled (by decide)
    · exact absurd hl (by decide)

end CorustHackathon.TaskManager
