import CorustHackathon.TaskManager.Invariant
import CorustHackathon.TaskManager.Spec

/-! # The task manager refines the abstract one

`lives tr` is the abstract state that the history `tr` leads to, and `Sim` relates it to the
state of the code: who is `waiting` is in `waiting` under its key, who is `running` has a
future between taking its task and removing its context, and so on.

The move of a task from `waiting` to `ongoing` is one abstract step, taken when the task is
removed from `waiting`: until its context is in `ongoing` the future holds the lock of
`ongoing`, so nobody looks.

All of it is for runs in which `KEY` has been drawn at most `2 ^ 64` times: after that two
tasks of a manager can have the same key. -/

namespace CorustHackathon.TaskManager

open Function (update)
open Spec (Life)

/-- The abstract operations of a step. -/
def Label.ops : Label → List (Spec.Op ℕ)
  | .fetchAdd _ d => [.draw d]
  | .insert _ d => [.submit d]
  | .removed _ _ b => [.discard b]
  | .signalled _ _ tok => [.signal tok]
  | .take _ b => [.start b]
  | .leave _ b => [.finish b]
  | .panic _ b => [.finish b]
  | .drain _ => [.discardAll]
  | .cancelAll => [.signalAll]
  | _ => []

/-- The abstract state after the history `tr`. -/
def lives (tr : List Label) : Spec.State ℕ :=
  (tr.flatMap Label.ops).foldl Spec.Op.apply fun _ => .unborn

theorem lives_snoc (tr : List Label) (a : Label) :
    lives (tr ++ [a]) = a.ops.foldl Spec.Op.apply (lives tr) := by
  simp [lives]

/-- The future has taken a task and not removed its context. -/
def Fut.running : Fut → Bool
  | insert _ => true
  | f => f.entered

/-- The future has removed its context or panicked. -/
def Fut.isOver (f : Fut) : Bool := f.finished || f.panicked

/-- What the life of the task `d` says of the code. -/
def Fits (s : Sys) (d : ℕ) : Life → Prop
  | .unborn => s.waiting.lookup (keyOf d) ≠ some d ∧ s.fut d = .unspawned ∧ d ∉ s.chan ∧
      ∀ c, (s.call c).draw ≠ some d
  | .drawn => s.waiting.lookup (keyOf d) ≠ some d ∧ ∃ c, (s.call c).undelivered = some d
  | .waiting => s.waiting.lookup (keyOf d) = some d
  | .discarded => s.waiting.lookup (keyOf d) ≠ some d ∧
      ((s.fut d).before = true ∨ (s.fut d).missed = true) ∧
      (∀ c, (s.call c).undelivered ≠ some d) ∧ d < s.KEY
  | .running f => (s.fut d).running = true ∧ (f = true → s.cancelled d = true)
  | .done => (s.fut d).isOver = true

/-- The abstract state `A` and the state `s` of the code agree. -/
def Sim (A : Spec.State ℕ) (s : Sys) : Prop := ∀ d, Fits s d (A d)

/-- The context of a future that has inserted it is in `ongoing`, also when it has panicked. -/
def Registered (s : Sys) : Prop :=
  ∀ {t}, (s.fut t).entered = true ∨ (s.fut t).panicked = true →
    s.ongoing.lookup (keyOf t) = some t

section bounded

variable {s s' : Sys} {a : Label}

/-! ### Keys are names -/

theorem Boxes.box_eq (hB : Boxes s) (hM : Mail s) (hK : s.KEY ≤ usizeSize) {t b : ℕ}
    (h : (s.fut t).box = some b) : b = t := by
  have ht : s.fut t ≠ .unspawned := fun hu => by simp [hu, Fut.box] at h
  exact keyOf_inj ((hB.box_lt h).trans_le hK) ((hM.fut_lt ht).trans_le hK) (hB.box_key h)

theorem Boxes.waiting_eq (hB : Boxes s) (hK : s.KEY ≤ usizeSize) {k b : ℕ}
    (h : s.waiting.lookup k = some b) : b = k := by
  rw [← hB.waiting_key h, keyOf_of_lt ((hB.waiting_lt h).trans_le hK)]

theorem Contexts.ongoing_eq (hC : Contexts s) (hM : Mail s) (hK : s.KEY ≤ usizeSize) {k t : ℕ}
    (h : s.ongoing.lookup k = some t) : t = k := by
  have ht : s.fut t ≠ .unspawned := fun hu => by
    rcases hC.entered h with h | h <;> simp [hu, Fut.entered, Fut.panicked] at h
  rw [← hC.key h, keyOf_of_lt ((hM.fut_lt ht).trans_le hK)]

/-! ### `ongoing` -/

theorem Registered.futStep {t : ℕ} (hR : Registered s) (hI : Inv s) (hK : s.KEY ≤ usizeSize)
    (h : FutStep t s a s') : Registered s' := by
  have f := h.frame
  have hlt : ∀ {u}, s.fut u ≠ .unspawned → u < usizeSize := fun hu =>
    (hI.mail.fut_lt hu).trans_le hK
  intro u hu
  rcases h.contexts with ⟨b, ht, ht', ho⟩ | ⟨b, ht, ht', ho⟩ | ⟨ho, _, _, _, he⟩
  · rw [ho, lookup_insertContext]
    by_cases hut : u = t
    · subst hut
      have hnone : s.ongoing.lookup (keyOf u) = none := by
        -- a context with this key would be that of a future with this draw
        refine Option.eq_none_iff_forall_ne_some.mpr fun v hv => ?_
        have hvs := hI.contexts.spawned hv
        have := keyOf_inj (hlt hvs) (hlt (by rw [ht]; nofun)) (hI.contexts.key hv)
        subst this
        rcases hI.contexts.entered hv with h | h <;> simp [ht, Fut.entered, Fut.panicked] at h
      simp [hnone]
    · rw [f.others u hut] at hu
      have hl := hR hu
      split_ifs with hk
      · rw [hk.1, hk.2] at hl
        cases hl
      · exact hl
  · have hut : u ≠ t := fun he => by rw [he, ht'] at hu; simp [Fut.entered, Fut.panicked] at hu
    rw [f.others u hut] at hu
    rw [ho, lookup_erase_apply, if_neg, hR hu]
    refine fun hk => hut (keyOf_inj (hlt fun hn => ?_) (hlt f.spawned) hk)
    simp [hn, Fut.entered, Fut.panicked] at hu
  · rw [ho]
    by_cases hut : u = t
    · subst hut
      exact hR (he hu)
    · rw [f.others u hut] at hu
      exact hR hu

/-- The futures are the same, or unspawned, and so is `ongoing`. -/
theorem Registered.congr (hR : Registered s) (ho : s'.ongoing = s.ongoing)
    (hf : ∀ u, (s'.fut u).entered = (s.fut u).entered ∧
      (s'.fut u).panicked = (s.fut u).panicked) : Registered s' := by
  intro u hu
  rw [ho]
  rw [(hf u).1, (hf u).2] at hu
  exact hR hu

theorem Registered.step (hR : Registered s) (hI : Inv s) (hK : s.KEY ≤ usizeSize)
    (h : Step s a s') : Registered s' := by
  cases h with
  | other => exact hR.congr rfl fun _ => ⟨rfl, rfl⟩
  | own h =>
      cases h with
      | call c h => exact hR.congr h.frame.ongoing (by simp [h.frame.fut])
      | fut t h => exact hR.futStep hI hK h
      | drop h => exact hR.congr h.frame.ongoing (by simp [h.frame.fut])
      | background h =>
          refine hR.congr h.frame.ongoing fun u => ?_
          rcases hI.mail.backgroundStep_fut h u with hu | ⟨hu, hu'⟩
          · rw [hu]; exact ⟨rfl, rfl⟩
          · simp [hu, hu', Fut.entered, Fut.panicked]

/-! ### Lives -/

/-- A task whose surroundings are the same, up to a future that stays in its part of the code. -/
theorem Fits.congr {d : ℕ} {l : Life} (h : Fits s d l)
    (hw : s'.waiting.lookup (keyOf d) = some d ↔ s.waiting.lookup (keyOf d) = some d)
    (hc : ∀ c, (s'.call c).draw = some d ↔ (s.call c).draw = some d)
    (hu : ∀ c, (s'.call c).undelivered = some d ↔ (s.call c).undelivered = some d)
    (hchan : d ∈ s'.chan → d ∈ s.chan ∨ ∃ c, (s.call c).draw = some d)
    (hf : s'.fut d = s.fut d) (hk : s.cancelled d = true → s'.cancelled d = true)
    (hK : s.KEY ≤ s'.KEY) : Fits s' d l := by
  cases l with
  | unborn =>
      obtain ⟨h₁, h₂, h₃, h₄⟩ := h
      exact ⟨fun h => h₁ (hw.mp h), hf ▸ h₂, fun h => (hchan h).elim h₃ fun ⟨c, hc⟩ => h₄ c hc,
        fun c h => h₄ c ((hc c).mp h)⟩
  | drawn =>
      obtain ⟨h₁, c, h₂⟩ := h
      exact ⟨fun h => h₁ (hw.mp h), c, (hu c).mpr h₂⟩
  | waiting => exact hw.mpr h
  | discarded =>
      obtain ⟨h₁, h₂, h₃, h₄⟩ := h
      exact ⟨fun h => h₁ (hw.mp h), hf ▸ h₂, fun c h => h₃ c ((hu c).mp h), h₄.trans_le hK⟩
  | running f => exact ⟨hf ▸ h.1, fun he => hk (h.2 he)⟩
  | done => exact (congrArg Fut.isOver hf).trans h

/-- What a step of a future does to a life. -/
theorem FutStep.lives {t : ℕ} (h : FutStep t s a s') :
    (∃ b, a = .take t b ∧ s.fut t = .remove ∧ s.waiting.lookup (keyOf t) = some b ∧
      s'.fut t = .insert b ∧ s'.waiting = s.waiting.erase (keyOf t)) ∨
    (∃ b, (a = .leave t b ∨ a = .panic t b) ∧ (s.fut t).running = true ∧
      (s.fut t).box = some b ∧ (s'.fut t).isOver = true ∧ s'.waiting = s.waiting) ∨
    (a.ops = [] ∧ s'.waiting = s.waiting ∧
      ((s.fut t).before = true ∨ (s.fut t).missed = true →
        (s'.fut t).before = true ∨ (s'.fut t).missed = true) ∧
      ((s.fut t).running = true → (s'.fut t).running = true) ∧
      ((s.fut t).isOver = true → (s'.fut t).isOver = true)) := by
  cases h with
  | @take b h hb => exact .inl ⟨b, rfl, h, hb, by simp, rfl⟩
  | @leave b h =>
      exact .inr (.inl ⟨b, .inl rfl, by simp [h, Fut.running, Fut.entered], by simp [h, Fut.box],
        by simp [Fut.isOver, Fut.finished], rfl⟩)
  | @panic b h hb =>
      refine .inr (.inl ⟨b, .inr rfl, ?_, hb, by simp [Fut.isOver, Fut.panicked], rfl⟩)
      revert h
      cases s.fut t <;> simp [Fut.inCallback, Fut.running, Fut.entered]
  | @release e h =>
      refine .inr (.inr ⟨rfl, rfl, ?_⟩)
      cases e <;> simp [h, Fut.before, Fut.missed, Fut.running, Fut.entered, Fut.isOver,
        Fut.finished, Fut.panicked]
  | acquire h | lockOngoing h | lockWaiting h | miss h | elseReturn h | enter h | select h
  | passBegin h | pollRun h | skipRun h | runPending h | runOk h | runErr h | tokenPending h
  | tokenCancelled h | passEnd h | onErrPending h | onErrReturn h | onCancelPending h
  | onCancelReturn h | lockEnd h =>
      exact .inr (.inr ⟨rfl, rfl, by simp [h, Fut.before, Fut.missed],
        by simp [h, Fut.running, Fut.entered], by simp [h, Fut.isOver, Fut.finished, Fut.panicked]⟩)

/-- The places of a future exclude each other. -/
theorem Fut.before_excludes {f : Fut} (h : f.before = true) :
    f.missed = false ∧ f.running = false ∧ f.isOver = false := by
  cases f <;> simp_all [Fut.before, Fut.missed, Fut.running, Fut.entered, Fut.isOver, Fut.finished,
    Fut.panicked]

theorem Fut.missed_excludes {f : Fut} (h : f.missed = true) :
    f.running = false ∧ f.isOver = false := by
  cases f with
  | drop e | done e =>
      cases e <;> simp_all [Fut.missed, Fut.running, Fut.entered, Fut.isOver, Fut.finished,
        Fut.panicked]
  | _ => simp_all [Fut.missed, Fut.running, Fut.entered, Fut.isOver, Fut.finished, Fut.panicked]

theorem Fut.running_excludes {f : Fut} (h : f.running = true) : f.isOver = false := by
  cases f <;> simp_all [Fut.running, Fut.entered, Fut.isOver, Fut.finished, Fut.panicked]

theorem Fut.before_of_unspawned {f : Fut} (h : f = .unspawned) : f.before = true := by
  rw [h]; rfl

/-- Where the future of a task is, by the life of the task. -/
theorem Sim.place {A : Spec.State ℕ} (hS : Sim A s) (hI : Inv s) (d : ℕ) :
    ((s.fut d).before = true ∧ ∀ f, A d ≠ .running f ∧ A d ≠ .done) ∨
    ((s.fut d).missed = true ∧ A d = .discarded) ∨
    ((s.fut d).running = true ∧ ∃ f, A d = .running f) ∨
    ((s.fut d).isOver = true ∧ A d = .done) := by
  have hd := hS d
  cases hA : A d with
  | unborn =>
      rw [hA] at hd
      exact .inl ⟨Fut.before_of_unspawned hd.2.1, by simp⟩
  | drawn =>
      rw [hA] at hd
      obtain ⟨_, c, hc⟩ := hd
      exact .inl ⟨Fut.before_of_unspawned
        (hI.mail.draw_unspawned (Call.draw_of_undelivered hc)), by simp⟩
  | waiting => rw [hA] at hd; exact .inl ⟨hI.boxes.waiting_before hd, by simp⟩
  | discarded => rw [hA] at hd; exact hd.2.1.imp (⟨·, by simp⟩) fun h => .inl ⟨h, rfl⟩
  | running f => rw [hA] at hd; exact .inr (.inr (.inl ⟨hd.1, f, rfl⟩))
  | done => rw [hA] at hd; exact .inr (.inr (.inr ⟨hd, rfl⟩))

/-- A task in `waiting` is one whose life says so. -/
theorem Sim.waiting {A : Spec.State ℕ} (hS : Sim A s) (hI : Inv s) {d : ℕ}
    (h : s.waiting.lookup (keyOf d) = some d) : A d = .waiting := by
  have hd := hS d
  have hb := Fut.before_excludes (hI.boxes.waiting_before h)
  cases hA : A d with
  | waiting => rfl
  | unborn | drawn | discarded => rw [hA] at hd; exact absurd h hd.1
  | running f => rw [hA] at hd; exact absurd hd.1 (by simp [hb.2.1])
  | done =>
      rw [hA] at hd
      have hd : (s.fut d).isOver = true := hd
      exact absurd hd (by simp [hb.2.2])

/-- A task with a future in the running part of the code is one whose life says so. -/
theorem Sim.running {A : Spec.State ℕ} (hS : Sim A s) (hI : Inv s) {d : ℕ}
    (h : (s.fut d).running = true) : ∃ f, A d = .running f := by
  rcases hS.place hI d with ⟨hb, _⟩ | ⟨hm, _⟩ | ⟨_, hr⟩ | ⟨ho, _⟩
  · exact absurd h (by simp [(Fut.before_excludes hb).2.1])
  · exact absurd h (by simp [(Fut.missed_excludes hm).1])
  · exact hr
  · exact absurd ho (by simp [Fut.running_excludes h])

/-- A task whose future is over is one whose life says so. -/
theorem Sim.done {A : Spec.State ℕ} (hS : Sim A s) (hI : Inv s) {d : ℕ}
    (h : (s.fut d).isOver = true) : A d = .done := by
  rcases hS.place hI d with ⟨hb, _⟩ | ⟨hm, _⟩ | ⟨hr, _⟩ | ⟨_, ho⟩
  · exact absurd h (by simp [(Fut.before_excludes hb).2.2])
  · exact absurd h (by simp [(Fut.missed_excludes hm).2])
  · exact absurd h (by simp [Fut.running_excludes hr])
  · exact ho

/-- What simulation demands of a step. -/
def Simulates (A : Spec.State ℕ) (a : Label) (s' : Sys) : Prop :=
  Run Spec.Step A a.ops (a.ops.foldl Spec.Op.apply A) ∧ Sim (a.ops.foldl Spec.Op.apply A) s'

theorem Simulates.stutter {A : Spec.State ℕ} (ha : a.ops = []) (hS : Sim A s') :
    Simulates A a s' := by
  rw [Simulates, ha]
  exact ⟨.nil, hS⟩

theorem Simulates.op {A : Spec.State ℕ} {o : Spec.Op ℕ} (ha : a.ops = [o]) (he : o.Enabled A)
    (hS : Sim (o.apply A) s') : Simulates A a s' := by
  rw [Simulates, ha]
  exact ⟨.single ⟨he, rfl⟩, hS⟩

theorem Sim.futStep {A : Spec.State ℕ} {t : ℕ} (hS : Sim A s) (hI : Inv s)
    (hK : s.KEY ≤ usizeSize) (h : FutStep t s a s') : Simulates A a s' := by
  have f := h.frame
  -- the tasks of other futures see nothing of the step
  have others : ∀ d l, d ≠ t → (s'.waiting.lookup (keyOf d) = some d ↔
      s.waiting.lookup (keyOf d) = some d) → Fits s d l → Fits s' d l := fun d l hd hw hF =>
    hF.congr hw (by simp [f.call]) (by simp [f.call]) (by rw [f.chan]; exact .inl)
      (f.others d hd) (by rw [f.cancelled]; exact id) f.KEY.ge
  rcases h.lives with ⟨b, rfl, ht, hb, ht', hw⟩ | ⟨b, ha, hr, hb, ho, hw⟩ | ⟨ha, hw, hm, hr, ho⟩
  · have hbt : b = t := by
      rw [hI.boxes.waiting_eq hK hb, keyOf_of_lt ((hI.mail.fut_lt f.spawned).trans_le hK)]
    subst hbt
    refine .op rfl (hS.waiting hI hb) fun d => ?_
    by_cases hd : d = b
    · subst hd
      simp [Spec.Op.apply, Fits, ht', Fut.running]
    · rw [Spec.Op.apply, Function.update_of_ne hd]
      refine others d _ hd ?_ (hS d)
      rw [hw, lookup_erase_apply]
      split_ifs with hk
      · rw [hk, hb]
        simp [Ne.symm hd]
      · rfl
  · have hbt : b = t := hI.boxes.box_eq hI.mail hK hb
    subst hbt
    have hops : a.ops = [.finish b] := by rcases ha with rfl | rfl <;> rfl
    refine .op hops (hS.running hI hr) fun d => ?_
    by_cases hd : d = b
    · subst hd
      simp [Spec.Op.apply, Fits, ho]
    · rw [Spec.Op.apply, Function.update_of_ne hd]
      exact others d _ hd (by rw [hw]) (hS d)
  · refine .stutter ha fun d => ?_
    by_cases hd : d = t
    · subst hd
      have hF := hS d
      cases hA : A d with
      | unborn => rw [hA] at hF; exact absurd hF.2.1 f.spawned
      | drawn =>
          rw [hA] at hF
          obtain ⟨_, c, hc⟩ := hF
          exact absurd (hI.mail.draw_unspawned (Call.draw_of_undelivered hc)) f.spawned
      | waiting => rw [hA] at hF; rw [Fits, hw]; exact hF
      | discarded =>
          rw [hA] at hF
          exact ⟨by rw [hw]; exact hF.1, hm hF.2.1, by rw [f.call]; exact hF.2.2.1,
            by rw [f.KEY]; exact hF.2.2.2⟩
      | running g =>
          rw [hA] at hF
          exact ⟨hr hF.1, by rw [f.cancelled]; exact hF.2⟩
      | done => rw [hA] at hF; exact ho hF
    · exact others d _ hd (by rw [hw]) (hS d)

/-- A task that nobody has drawn is one whose life says so. -/
theorem Sim.unborn {A : Spec.State ℕ} (hS : Sim A s) (hI : Inv s) {d : ℕ} (hd : s.KEY ≤ d) :
    A d = .unborn := by
  have hF := hS d
  have hun : s.fut d = .unspawned :=
    not_not.mp fun hn => absurd (hI.mail.fut_lt hn) (not_lt.mpr hd)
  cases hA : A d with
  | unborn => rfl
  | drawn =>
      rw [hA] at hF
      obtain ⟨_, c', hc'⟩ := hF
      exact absurd (hI.mail.draw_lt (Call.draw_of_undelivered hc')) (not_lt.mpr hd)
  | waiting => rw [hA] at hF; exact absurd (hI.boxes.waiting_lt hF) (not_lt.mpr hd)
  | discarded => rw [hA] at hF; exact absurd hF.2.2.2 (not_lt.mpr hd)
  | running f => rw [hA, Fits, hun] at hF; cases hF.1
  | done => rw [hA, Fits, hun] at hF; cases hF

/-- A task that its caller has not inserted is one whose life says so. -/
theorem Sim.drawn {A : Spec.State ℕ} (hS : Sim A s) (hI : Inv s) {c d : ℕ}
    (hd : (s.call c).undelivered = some d) : A d = .drawn := by
  have hF := hS d
  have hdraw := Call.draw_of_undelivered hd
  have hun : s.fut d = .unspawned := hI.mail.draw_unspawned hdraw
  cases hA : A d with
  | drawn => rfl
  | unborn => rw [hA] at hF; exact absurd hdraw (hF.2.2.2 c)
  | waiting => rw [hA] at hF; exact absurd hd (hI.boxes.waiting_delivered hF)
  | discarded => rw [hA] at hF; exact absurd hd (hF.2.2.1 c)
  | running f => rw [hA, Fits, hun] at hF; cases hF.1
  | done => rw [hA, Fits, hun] at hF; cases hF

/-- What is said of every caller is kept by a step that keeps it of its own. -/
theorem update_iff (P : Call → Prop) {f : ℕ → Call} {c : ℕ} {x : Call} (h : P x ↔ P (f c))
    (c' : ℕ) : P (update f c x c') ↔ P (f c') := by
  by_cases hc : c' = c
  · subst hc
    rwa [Function.update_self]
  · rw [Function.update_of_ne hc]

/-- A caller that moves without drawing, inserting or removing. -/
theorem Sim.call {A : Spec.State ℕ} {c : ℕ} {x : Call} (hS : Sim A s)
    (hc : s'.call = update s.call c x) (hd : x.draw = (s.call c).draw)
    (hu : x.undelivered = (s.call c).undelivered) (hw : s'.waiting = s.waiting)
    (hchan : s'.chan = s.chan) (hf : s'.fut = s.fut) (hk : s'.cancelled = s.cancelled)
    (hK : s'.KEY = s.KEY) : Sim A s' := fun d => by
  refine (hS d).congr (by rw [hw]) ?_ ?_ (by rw [hchan]; exact .inl)
    (by rw [hf]) (by rw [hk]; exact id) hK.ge
  · rw [hc]
    exact update_iff (fun x => x.draw = some d) (by rw [hd])
  · rw [hc]
    exact update_iff (fun x => x.undelivered = some d) (by rw [hu])

/-- A caller that has sent its `Task`, or failed to. -/
theorem Sim.sent {A : Spec.State ℕ} {c d : ℕ} (hS : Sim A s)
    (hd : s.call c = .send d) (hc : s'.call = update s.call c .idle) (hw : s'.waiting = s.waiting)
    (hchan : ∀ e ∈ s'.chan, e ∈ s.chan ∨ e = d) (hf : s'.fut = s.fut)
    (hk : s'.cancelled = s.cancelled) (hK : s'.KEY = s.KEY) : Sim A s' := fun e => by
  have hdraw : (s.call c).draw = some d := by simp [hd, Call.draw]
  have hundel : ∀ c' e, (s'.call c').undelivered = some e ↔ (s.call c').undelivered = some e := by
    intro c' e
    rw [hc]
    exact update_iff (fun x => x.undelivered = some e) (by simp [hd, Call.undelivered]) c'
  have hF := hS e
  cases hA : A e with
  | unborn =>
      rw [hA] at hF
      obtain ⟨h₁, h₂, h₃, h₄⟩ := hF
      have hed : e ≠ d := fun he => h₄ c (he ▸ hdraw)
      refine ⟨by rw [hw]; exact h₁, by rw [hf]; exact h₂, fun h => ?_, fun c' h => ?_⟩
      · exact (hchan e h).elim h₃ hed
      · rw [hc] at h
        by_cases hcc : c' = c
        · subst hcc; simp [Call.draw] at h
        · rw [Function.update_of_ne hcc] at h; exact h₄ c' h
  | drawn =>
      rw [hA] at hF
      obtain ⟨h₁, c', h₂⟩ := hF
      exact ⟨by rw [hw]; exact h₁, c', (hundel c' e).mpr h₂⟩
  | waiting => rw [hA] at hF; rw [Fits, hw]; exact hF
  | discarded =>
      rw [hA] at hF
      obtain ⟨h₁, h₂, h₃, h₄⟩ := hF
      exact ⟨by rw [hw]; exact h₁, by rw [hf]; exact h₂, fun c' h => h₃ c' ((hundel c' e).mp h),
        by rw [hK]; exact h₄⟩
  | running f => rw [hA] at hF; rw [Fits, hf, hk]; exact hF
  | done => rw [hA] at hF; rw [Fits, hf]; exact hF

/-- `spawn_task` draws its key. -/
theorem Sim.fetchAdd {A : Spec.State ℕ} {c : ℕ} (hS : Sim A s) (hI : Inv s)
    (h : s.call c = .fetchAdd) : Simulates A (.fetchAdd c s.KEY)
      { s with call := update s.call c (.lockInsert s.KEY), KEY := s.KEY + 1 } := by
  refine .op rfl (hS.unborn hI le_rfl) fun d => ?_
  by_cases hd : d = s.KEY
  · subst hd
    rw [Spec.Op.apply, Function.update_self]
    refine ⟨fun hl => ?_, c, ?_⟩
    · exact absurd (hI.boxes.waiting_lt hl) (lt_irrefl _)
    · simp [Call.undelivered]
  · rw [Spec.Op.apply, Function.update_of_ne hd]
    refine (hS d).congr Iff.rfl (update_iff (fun x => x.draw = some d) ?_)
      (update_iff (fun x => x.undelivered = some d) ?_) .inl rfl id (Nat.le_succ _)
    · simp [h, Call.draw, Ne.symm hd]
    · simp [h, Call.undelivered, Ne.symm hd]

/-- `spawn_task` puts its task into `waiting`. -/
theorem Sim.insert {A : Spec.State ℕ} {c d : ℕ} (hS : Sim A s) (hI : Inv s)
    (hK : s.KEY ≤ usizeSize) (h : s.call c = .insert d) : Simulates A (.insert c d)
      { s with
        call := update s.call c (.send d)
        waiting := s.waiting.insert (keyOf d) d
        waitingLock := .free } := by
  have hd : (s.call c).undelivered = some d := by simp [h, Call.undelivered]
  have hdlt := (hI.mail.draw_lt (Call.draw_of_undelivered hd)).trans_le hK
  refine .op rfl (hS.drawn hI hd) fun e => ?_
  by_cases he : e = d
  · subst he
    simp [Spec.Op.apply, Fits]
  · rw [Spec.Op.apply, Function.update_of_ne he]
    refine (hS e).congr ?_ (update_iff (fun x => x.draw = some e) ?_)
      (update_iff (fun x => x.undelivered = some e) ?_) .inl rfl id le_rfl
    · rw [lookup_insert_apply]
      split_ifs with hk
      · refine iff_of_false (by simp [Ne.symm he]) fun hl => he ?_
        exact keyOf_inj ((hI.boxes.waiting_lt hl).trans_le hK) hdlt hk
      · rfl
    · simp [h, Call.draw]
    · simp [h, Call.undelivered, Ne.symm he]

/-- `cancel` takes a task out of `waiting`. -/
theorem Sim.removed {A : Spec.State ℕ} {c k b : ℕ} (hS : Sim A s) (hI : Inv s)
    (h : s.call c = .remove k) (hb : s.waiting.lookup k = some b) :
    Simulates A (.removed c k b)
      { s with
        call := update s.call c .idle
        waiting := s.waiting.erase k
        waitingLock := .free } := by
  have hkey : keyOf b = k := hI.boxes.waiting_key hb
  have hA : A b = .waiting := hS.waiting hI (by rw [hkey]; exact hb)
  refine .op rfl hA fun e => ?_
  by_cases he : e = b
  · subst he
    rw [Spec.Op.apply, Function.update_self]
    refine ⟨by rw [hkey]; simp, .inl (hI.boxes.waiting_before hb), fun x hx => ?_,
      hI.boxes.waiting_lt hb⟩
    by_cases hxc : x = c
    · subst hxc; simp [Call.undelivered] at hx
    · exact hI.boxes.waiting_delivered (c := x) hb (by simpa [hxc] using hx)
  · rw [Spec.Op.apply, Function.update_of_ne he]
    refine (hS e).congr ?_ (update_iff (fun x => x.draw = some e) ?_)
      (update_iff (fun x => x.undelivered = some e) ?_) .inl rfl id le_rfl
    · rw [lookup_erase_apply]
      split_ifs with hk
      · rw [hk, hb]; simp [Ne.symm he]
      · rfl
    · simp [h, Call.draw]
    · simp [h, Call.undelivered]

/-- `cancel` cancels the token that it has found in `ongoing`. -/
theorem Sim.signalled {A : Spec.State ℕ} {c k tok : ℕ} (hS : Sim A s) (hI : Inv s)
    (h : s.call c = .get k) (hk : s.ongoing.lookup k = some tok) :
    Simulates A (.signalled c k tok)
      { s with
        call := update s.call c .idle
        cancelled := update s.cancelled tok true
        ongoingLock := s.ongoingLock.unread (.caller c) } := by
  have hA : (∃ f, A tok = .running f) ∨ A tok = .done := by
    rcases hI.contexts.entered hk with he | hp
    · exact .inl (hS.running hI (by revert he; cases s.fut tok <;> simp [Fut.running]))
    · exact .inr (hS.done hI (by simp [Fut.isOver, hp]))
  have hC : Sim A { s with
      call := update s.call c .idle
      ongoingLock := s.ongoingLock.unread (.caller c) } :=
    hS.call rfl (by simp [h, Call.draw]) (by simp [h, Call.undelivered]) rfl rfl rfl rfl rfl
  refine .op rfl hA fun e => ?_
  by_cases he : e = tok
  · subst he
    rw [Spec.Op.apply, Function.update_self]
    have hF := hC e
    rcases hA with ⟨f, hA⟩ | hA
    · rw [hA] at hF ⊢
      exact ⟨hF.1, fun _ => by simp⟩
    · rw [hA] at hF ⊢
      exact hF
  · rw [Spec.Op.apply, Function.update_of_ne he]
    exact (hC e).congr Iff.rfl (fun _ => Iff.rfl) (fun _ => Iff.rfl) .inl rfl
      (by simp [he]) le_rfl

theorem Sim.callStep {A : Spec.State ℕ} {c : ℕ} (hS : Sim A s) (hI : Inv s)
    (hK : s'.KEY ≤ usizeSize) (h : CallStep c s a s') : Simulates A a s' := by
  cases h with
  | fetchAdd h => exact hS.fetchAdd hI h
  | insert h => exact hS.insert hI hK h
  | removed h hb => exact hS.removed hI h hb
  | signalled h hk => exact hS.signalled hI h hk
  | spawnOk h hr =>
      refine .stutter rfl (hS.sent h rfl rfl (fun e he => ?_) rfl rfl rfl)
      simpa using he
  | spawnErr h hr => exact .stutter rfl (hS.sent h rfl rfl (fun e he => .inl he) rfl rfl rfl)
  | callSpawn _ h | lockInsert h | callCancel _ h | lockRemove h | notWaiting h | readOngoing h
  | notFound h =>
      exact .stutter rfl
        (hS.call rfl (by simp [h, Call.draw]) (by simp [h, Call.undelivered]) rfl rfl rfl rfl rfl)

/-- A step that leaves the callers and all that a life speaks of. -/
theorem Sim.congr {A : Spec.State ℕ} (hS : Sim A s) (hc : s'.call = s.call)
    (hw : s'.waiting = s.waiting) (hchan : s'.chan = s.chan) (hf : s'.fut = s.fut)
    (hk : s'.cancelled = s.cancelled) (hK : s.KEY ≤ s'.KEY) : Sim A s' := fun d =>
  (hS d).congr (by rw [hw]) (by simp [hc]) (by simp [hc]) (by rw [hchan]; exact .inl) (by rw [hf])
    (by rw [hk]; exact id) hK

theorem Sim.backgroundStep {A : Spec.State ℕ} (hS : Sim A s) (hI : Inv s)
    (h : BackgroundStep s a s') : Simulates A a s' := by
  cases h with
  | @receive t rest hb hc =>
      have ht : t ∈ s.chan := by simp [hc]
      refine .stutter rfl fun d => ?_
      have hF := hS d
      by_cases hd : d = t
      · subst hd
        have hun := hI.mail.chan_unspawned ht
        cases hA : A d with
        | unborn => rw [hA] at hF; exact absurd ht hF.2.2.1
        | drawn => rw [hA] at hF; exact hF
        | waiting => rw [hA] at hF; exact hF
        | discarded =>
            rw [hA] at hF
            exact ⟨hF.1, .inl (by simp [Fut.before]), hF.2.2⟩
        | running f => rw [hA, Fits, hun] at hF; cases hF.1
        | done => rw [hA, Fits, hun] at hF; cases hF
      · exact hF.congr Iff.rfl (fun _ => Iff.rfl) (fun _ => Iff.rfl)
          (fun hm => .inl (by rw [hc]; exact .tail _ hm)) (by simp [hd]) id le_rfl
  | buildPanic h =>
      exact .stutter rfl fun d => (hS d).congr Iff.rfl (fun _ => Iff.rfl) (fun _ => Iff.rfl)
        (by simp) rfl id le_rfl
  | built | joinNext | closed | joinAll | exit =>
      exact .stutter rfl (hS.congr rfl rfl rfl rfl rfl le_rfl)

theorem Sim.dropStep {A : Spec.State ℕ} (hS : Sim A s) (hI : Inv s) (hR : Registered s)
    (h : DropStep s a s') : Simulates A a s' := by
  cases h with
  | drain h =>
      refine .op rfl trivial fun d => ?_
      have hF := hS d
      dsimp only [Spec.Op.apply]
      cases hA : A d with
      | waiting =>
          rw [hA] at hF
          exact ⟨by simp, .inl (hI.boxes.waiting_before hF),
            fun c => hI.boxes.waiting_delivered hF, hI.boxes.waiting_lt hF⟩
      | unborn | drawn | discarded => rw [hA] at hF; exact ⟨by simp, hF.2⟩
      | running f | done => rw [hA] at hF; exact hF
  | cancelAll h =>
      refine .op rfl trivial fun d => ?_
      have hF := hS d
      dsimp only [Spec.Op.apply]
      cases hA : A d with
      | running f =>
          rw [hA] at hF
          refine ⟨hF.1, fun _ => ?_⟩
          -- a future that has taken its task and not inserted its context would hold the lock
          have hent : (s.fut d).entered = true := by
            have hr := hF.1
            have hnot : ¬ s.writesOngoing (.future d) := fun hw => by
              have := hI.locks.ongoing.write_unique hw
                (show s.writesOngoing .dropper by simp [h])
              cases this
            revert hr hnot
            cases hfd : s.fut d <;> simp [Fut.running, hfd]
          simp only [Bool.or_eq_true, decide_eq_true_eq, hasToken_iff]
          exact .inr ⟨_, hR (.inl hent)⟩
      | unborn | drawn | waiting | discarded | done => rw [hA] at hF; exact hF
  | dropBegin | dropLockWaiting | dropLockOngoing | takeTx | joinOk | joinErr =>
      exact .stutter rfl (hS.congr rfl rfl rfl rfl rfl le_rfl)

/-- **Every step of the code is a step of the abstract manager**, or nothing to it. -/
theorem Sim.step {A : Spec.State ℕ} (hS : Sim A s) (hI : Inv s) (hR : Registered s)
    (hK : s'.KEY ≤ usizeSize) (h : Step s a s') : Simulates A a s' := by
  cases h with
  | other => exact .stutter rfl (hS.congr rfl rfl rfl rfl rfl (Nat.le_succ _))
  | own h =>
      cases h with
      | call c h => exact hS.callStep hI hK h
      | fut t h => exact hS.futStep hI (h.frame.KEY ▸ hK) h
      | background h => exact hS.backgroundStep hI h
      | drop h => exact hS.dropStep hI hR h

end bounded

/-- **Refinement**: a run in which `KEY` is drawn at most `2 ^ 64` times is a run of the abstract
manager that ends in the lives of its history. -/
theorem refines {n KEY : ℕ} {tr : List Label} {s : Sys} (h : Run Step (init n KEY) tr s)
    (hK : s.KEY ≤ usizeSize) :
    Run Spec.Step (fun _ => .unborn) (tr.flatMap Label.ops) (lives tr) ∧ Sim (lives tr) s ∧
      Registered s := by
  revert hK
  refine h.invariant (I := fun tr s => s.KEY ≤ usizeSize →
    Run Spec.Step (fun _ => .unborn) (tr.flatMap Label.ops) (lives tr) ∧ Sim (lives tr) s ∧
      Registered s) ?_ ?_
  · refine fun _ => ⟨.nil, fun d => ?_, fun {t} ht => ?_⟩
    · simp [Fits, lives, init, Manager.new, Call.draw]
    · simp [init, Manager.new, Fut.entered, Fut.panicked] at ht
  · intro tr s a s' hr ih hs hK
    have hK' := hs.KEY_le.trans hK
    obtain ⟨hrun, hS, hR⟩ := ih hK'
    have hI := Inv.of_run hr
    obtain ⟨h₁, h₂⟩ := hS.step hI hR hK hs
    rw [lives_snoc, List.flatMap_append, List.flatMap_singleton]
    exact ⟨hrun.trans h₁, h₂, hR.step hI hK' hs⟩

end CorustHackathon.TaskManager
