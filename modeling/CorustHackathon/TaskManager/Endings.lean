import CorustHackathon.TaskManager.History
import CorustHackathon.TaskManager.Sequential

/-! # How a task ends

The callbacks made on a boxed task, read off the history, are determined by where its future is
(`Fut.Log`): none before the `select!`, `run` and some pending polls inside it, and one of three
endings behind it.  `Quiet` is the condition under which no callback can follow, `LastPass` the
one under which the `select!` will not be passed over again. -/

namespace CorustHackathon.TaskManager

open Function (update)

/-- `run` has been called, and was pending `n` times. -/
def suspended (n : ℕ) : List Callback := .run :: List.replicate n .pending

/-- The callbacks made on a task whose `select!` has come to an end. -/
inductive Ended : List Callback → Prop
  /-- `run` to `Ok`. -/
  | ok (n : ℕ) : Ended (suspended n ++ [.ok])
  /-- `run` to `Err`, and `on_err`. -/
  | err (n : ℕ) : Ended (suspended n ++ [.err, .onErr])
  /-- `run` dropped unfinished, and `on_cancel`. -/
  | cancelled (n : ℕ) : Ended (suspended n ++ [.dropped, .onCancel])

/-- What has been called on a task, by the place of its future. -/
def Fut.Log (l : List Callback) : Fut → Prop
  | between _ _ | pass _ _ _ | polling _ _ => ∃ n, l = suspended n
  | onErr _ => ∃ n, l = suspended n ++ [.err, .onErr]
  | onCancel _ => ∃ n, l = suspended n ++ [.dropped, .onCancel]
  | lockRemove _ | removeOngoing _ | drop _ | done _ => Ended l
  | _ => l = []

/-- The `select!` has come to an end. -/
def Fut.past : Fut → Bool
  | lockRemove _ | removeOngoing _ | drop _ | done _ => true
  | _ => false

theorem suspended_succ (n : ℕ) : suspended (n + 1) = suspended n ++ [.pending] := by
  simp [suspended, List.replicate_succ']

variable {s s' : Sys} {a : Label}

/-! ### One step -/

/-- A future that steps inside its `select!` makes the callbacks of its place. -/
theorem FutStep.log {t b : ℕ} {l : List Callback} (h : FutStep t s a s')
    (hb : (s.fut t).box = some b) (hp : a ≠ .panic t b) (hl : (s.fut t).Log l) :
    (s'.fut t).Log (l ++ a.callbacks b) := by
  cases h with
  | @select b' h =>
      simp only [h, Fut.box, Option.some.injEq, Fut.Log] at hb hl
      subst hb hl
      simpa [Fut.Log, Label.callbacks] using ⟨0, rfl⟩
  | @runPending b' todo h =>
      simp only [h, Fut.box, Option.some.injEq, Fut.Log] at hb hl
      subst hb
      obtain ⟨n, rfl⟩ := hl
      simpa [Fut.Log, Label.callbacks] using ⟨n + 1, (suspended_succ n).symm⟩
  | @runOk b' todo h =>
      simp only [h, Fut.box, Option.some.injEq, Fut.Log] at hb hl
      subst hb
      obtain ⟨n, rfl⟩ := hl
      simpa [Fut.Log, Label.callbacks] using Ended.ok n
  | @runErr b' todo h =>
      simp only [h, Fut.box, Option.some.injEq, Fut.Log] at hb hl
      subst hb
      simpa [Fut.Log, Label.callbacks] using hl
  | @tokenCancelled b' en todo h =>
      simp only [h, Fut.box, Option.some.injEq, Fut.Log] at hb hl
      subst hb
      simpa [Fut.Log, Label.callbacks] using hl
  | @onErrReturn b' h =>
      simp only [h, Fut.Log] at hl
      obtain ⟨n, rfl⟩ := hl
      simpa [Fut.Log, Label.callbacks] using Ended.err n
  | @onCancelReturn b' h =>
      simp only [h, Fut.Log] at hl
      obtain ⟨n, rfl⟩ := hl
      simpa [Fut.Log, Label.callbacks] using Ended.cancelled n
  | @panic b' h hb' =>
      rw [hb, Option.some.injEq] at hb'
      exact absurd (by rw [hb']) hp
  | acquire h | lockOngoing h | lockWaiting h | take h | miss h | elseReturn h =>
      simp [h, Fut.box] at hb
  | enter h | passBegin h | pollRun h | skipRun h | tokenPending h | passEnd h | onErrPending h
  | onCancelPending h | lockEnd h | leave h | release h =>
      simpa [h, Fut.Log, Label.callbacks] using hl

/-- The history of the task `b` is that of the place of its future. -/
def Logged (b : ℕ) (tr : List Label) (s : Sys) : Prop :=
  ∀ t, (s.fut t).box = some b → (s.fut t).Log (callbacks tr b)

theorem Logged.step {n KEY b : ℕ} {tr : List Label} (hL : Logged b tr s)
    (hr : Run Step (init n KEY) tr s) (hp : ∀ t, a ≠ .panic t b) (h : Step s a s') :
    Logged b (tr ++ [a]) s' := by
  have hI := Inv.of_run hr
  intro u hu
  rw [callbacks_append, callbacks_singleton]
  rcases hI.mail.fut_cases h with ⟨t, h⟩ | ⟨ha, hf⟩
  · have f := h.frame
    have hnone : (s.fut t).box ≠ some b → a.callbacks b = [] := fun hb =>
      h.callbacks.resolve_right fun hc => hb hc.2
    by_cases hut : u = t
    · subst hut
      rcases h.boxes with ⟨b', ht, hb', ht', hw⟩ | ⟨hw, hbox, hbefore⟩
      · -- the future takes `b`, on which no callback has been made
        have hbb : b' = b := by simpa [ht', Fut.box] using hu
        subst hbb
        rw [ht', hnone (by simp [ht, Fut.box]), List.append_nil]
        exact silent_of_run hr fun v hv => hI.boxes.box_gone hv hb'
      · rw [hbox] at hu
        exact h.log hu (hp u) (hL u hu)
    · rw [f.others u hut] at hu ⊢
      rw [hnone fun hb => hut (hI.boxes.box_inj hu hb), List.append_nil]
      exact hL u hu
  · rw [Label.callbacks_of_actor ha b, List.append_nil]
    have he : s'.fut u = s.fut u := (hf u).resolve_right fun hn => by rw [hn.2] at hu; cases hu
    rw [he] at hu ⊢
    exact hL u hu

theorem Logged.of_run {n KEY b : ℕ} {tr : List Label} (h : Run Step (init n KEY) tr s)
    (hp : ∀ t, Label.panic t b ∉ tr) : Logged b tr s := by
  revert hp
  refine h.invariant (I := fun tr s => (∀ t, Label.panic t b ∉ tr) → Logged b tr s) ?_ ?_
  · exact fun _ t ht => by simp [init, Manager.new, Fut.box] at ht
  · intro tr s a s' hr ih hs hp
    have hp' : ∀ t, Label.panic t b ∉ tr := fun t ht => hp t (List.mem_append_left _ ht)
    refine Logged.step (ih hp') hr (fun t ha => hp t ?_) hs
    simp [ha]

/-! ### No callback follows -/

/-- The task `b` is out of reach: it has been taken out of `waiting`, and whoever has taken it
has left the `select!`. -/
structure Quiet (b : ℕ) (s : Sys) : Prop where
  drawn : b < s.KEY
  delivered : ∀ c, (s.call c).undelivered ≠ some b
  gone : ∀ k, s.waiting.lookup k ≠ some b
  past : ∀ t, (s.fut t).box = some b → (s.fut t).past = true

/-- A future behind its `select!` stays there. -/
theorem FutStep.past {t : ℕ} (h : FutStep t s a s') (hp : (s.fut t).past = true) :
    (s'.fut t).past = true := by
  cases h with
  | panic h hb => simp [Fut.past]
  | lockEnd h | leave h | release h => simp [Fut.past]
  | acquire h | lockOngoing h | lockWaiting h | take h | miss h | elseReturn h | enter h | select h
  | passBegin h | pollRun h | skipRun h | runPending h | runOk h | runErr h | tokenPending h
  | tokenCancelled h | passEnd h | onErrPending h | onErrReturn h | onCancelPending h
  | onCancelReturn h =>
      simp [h, Fut.past] at hp ⊢

theorem Fut.inSelect_of_past {f : Fut} (h : f.past = true) : f.inSelect = false := by
  cases f <;> simp_all [Fut.past, Fut.inSelect]

theorem Step.undelivered {c b : ℕ} (h : Step s a s') (hb : (s'.call c).undelivered = some b) :
    (s.call c).undelivered = some b ∨ b = s.KEY := by
  rcases h.call_cases c with he | h
  · exact .inl (he ▸ hb)
  · cases h <;> simp_all [Call.undelivered]

theorem CallStep.waiting {c k b : ℕ} (h : CallStep c s a s') (hb : s'.waiting.lookup k = some b) :
    s.waiting.lookup k = some b ∨ (s.call c).undelivered = some b := by
  cases h with
  | @insert d h =>
      rw [lookup_insert_apply] at hb
      split_ifs at hb
      · right; simpa [h, Call.undelivered] using hb
      · exact .inl hb
  | removed h hl =>
      rw [lookup_erase_apply] at hb
      split_ifs at hb
      exact .inl hb
  | _ => exact .inl hb

theorem DropStep.waiting {k b : ℕ} (h : DropStep s a s') (hb : s'.waiting.lookup k = some b) :
    s.waiting.lookup k = some b := by
  cases h with
  | drain h => simp at hb
  | _ => exact hb

theorem FutStep.waiting {t k b : ℕ} (h : FutStep t s a s')
    (hb : s'.waiting.lookup k = some b) : s.waiting.lookup k = some b := by
  rcases h.boxes with ⟨b', _, _, _, hw⟩ | ⟨hw, _⟩
  · rw [hw, lookup_erase_apply] at hb
    split_ifs at hb
    exact hb
  · rwa [hw] at hb

/-- Only a `spawn_task` puts a task into `waiting`. -/
theorem Step.waiting {k b : ℕ} (h : Step s a s') (hb : s'.waiting.lookup k = some b) :
    s.waiting.lookup k = some b ∨ ∃ c, (s.call c).undelivered = some b := by
  cases h with
  | other => exact .inl hb
  | own h =>
      cases h with
      | call c h => exact (h.waiting hb).imp_right fun hc => ⟨c, hc⟩
      | fut t h => exact .inl (h.waiting hb)
      | background h => exact .inl (h.frame.waiting ▸ hb)
      | drop h => exact .inl (h.waiting hb)

theorem Quiet.step {b : ℕ} (hQ : Quiet b s) (hM : Mail s) (h : Step s a s') :
    Quiet b s' ∧ a.callbacks b = [] := by
  have hdel : ∀ c, (s'.call c).undelivered ≠ some b := fun c hc =>
    (h.undelivered hc).elim (hQ.delivered c) fun he => absurd hQ.drawn (he ▸ lt_irrefl _)
  have hgone : ∀ k, s'.waiting.lookup k ≠ some b := fun k hk =>
    (h.waiting hk).elim (hQ.gone k) fun ⟨c, hc⟩ => hQ.delivered c hc
  rcases hM.fut_cases h with ⟨t, hf⟩ | ⟨ha, hf⟩
  · have hna : a.callbacks b = [] := hf.callbacks.resolve_right fun ⟨h₁, h₂⟩ => by
      rw [Fut.inSelect_of_past (hQ.past t h₂)] at h₁
      cases h₁
    refine ⟨⟨hQ.drawn.trans_le h.KEY_le, hdel, hgone, fun u hu => ?_⟩, hna⟩
    by_cases hut : u = t
    · subst hut
      rcases hf.boxes with ⟨b', _, hb', ht', _⟩ | ⟨_, hbox, _⟩
      · rw [ht', Fut.box, Option.some.injEq] at hu
        exact absurd (hu ▸ hb') (hQ.gone _)
      · exact hf.past (hQ.past u (hbox ▸ hu))
    · rw [hf.frame.others u hut] at hu ⊢
      exact hQ.past u hu
  · refine ⟨⟨hQ.drawn.trans_le h.KEY_le, hdel, hgone, fun t ht => ?_⟩,
      Label.callbacks_of_actor ha b⟩
    rcases hf t with he | he
    · rw [he] at ht ⊢; exact hQ.past t ht
    · rw [he.2] at ht; cases ht

/-- A task out of reach gets no callback in any continuation. -/
theorem Quiet.run {b : ℕ} {tr : List Label} (hQ : Quiet b s) (hI : Inv s)
    (h : Run Step s tr s') : Quiet b s' ∧ callbacks tr b = [] := by
  refine h.invariant (I := fun tr s' => Quiet b s' ∧ callbacks tr b = []) ⟨hQ, rfl⟩ ?_
  intro tr s₁ a s₂ hr hi hs
  obtain ⟨hQ', ha⟩ := hi.1.step (hI.run hr).mail hs
  exact ⟨hQ', by rw [callbacks_append, hi.2, callbacks_singleton, ha]; rfl⟩

/-- A task that a `cancel` or `Drop` removes from `waiting` was waiting there. -/
theorem Step.waiting_of_discards {b : ℕ} (hB : Boxes s) (h : Step s a s') (hd : a.discards b) :
    s.waiting.lookup (keyOf b) = some b := by
  cases h with
  | other => exact absurd hd id
  | own h =>
      cases h with
      | call c h =>
          cases h with
          | removed h hl =>
              rw [Label.discards] at hd
              subst hd
              rwa [hB.waiting_key hl]
          | _ => exact absurd hd id
      | fut t h => cases h <;> exact absurd hd id
      | background h => cases h <;> exact absurd hd id
      | drop h =>
          cases h with
          | drain h => exact hd
          | _ => exact absurd hd id

/-- It is out of reach from then on. -/
theorem Quiet.of_discards {b : ℕ} (hI : Inv s) (h : Step s a s') (hd : a.discards b) :
    Quiet b s' := by
  have hl := h.waiting_of_discards hI.boxes hd
  have hI' := hI.step h
  have hbox : ∀ t, (s.fut t).box ≠ some b := fun t ht => hI.boxes.box_gone ht hl
  have hdel : ∀ c, (s'.call c).undelivered ≠ some b := fun c hc =>
    (h.undelivered hc).elim (hI.boxes.waiting_delivered hl)
      fun he => absurd (hI.boxes.waiting_lt hl) (he ▸ lt_irrefl _)
  cases h with
  | other => exact absurd hd id
  | own h =>
      cases h with
      | call c h =>
          cases h with
          | @removed k b' hr hl' =>
              rw [Label.discards] at hd
              subst hd
              refine ⟨hI.boxes.waiting_lt hl, hdel, fun j hj => ?_,
                fun t ht => absurd ht (hbox t)⟩
              have hj' := hI'.boxes.waiting_key hj
              rw [← hj', hI.boxes.waiting_key hl'] at hj
              simp at hj
          | _ => exact absurd hd id
      | fut t h => cases h <;> exact absurd hd id
      | background h => cases h <;> exact absurd hd id
      | drop h =>
          cases h with
          | drain h =>
              exact ⟨hI.boxes.waiting_lt hl, hdel, fun k => by simp,
                fun t ht => absurd ht (hbox t)⟩
          | _ => exact absurd hd id

/-- So is a task whose key was removed from `ongoing`. -/
theorem Quiet.of_leave {t b : ℕ} (hI : Inv s) (h : Step s (.leave t b) s') : Quiet b s' := by
  cases h.futStep rfl with
  | leave hl =>
      have hbox : (s.fut t).box = some b := by simp [hl, Fut.box]
      refine ⟨hI.boxes.box_lt hbox, fun c => hI.boxes.box_delivered hbox,
        fun k => hI.boxes.box_gone hbox, fun u hu => ?_⟩
      by_cases hut : u = t
      · subst hut; simp [Fut.past]
      · dsimp only at hu
        rw [Function.update_of_ne hut] at hu
        exact absurd (hI.boxes.box_inj hu hbox) hut

/-! ### The last pass of a `select!` -/

/-- The branch of the token is still to be polled in this pass, or the `select!` is over. -/
def Fut.closing : Fut → Bool
  | pass _ _ todo | polling _ todo => decide (.cancelled ∈ todo)
  | onErr _ | onCancel _ => true
  | f => f.past

theorem FutStep.closing {t : ℕ} (h : FutStep t s a s') (hk : s.cancelled t = true)
    (hc : (s.fut t).closing = true) :
    (s'.fut t).closing = true ∧ ∀ b, a ≠ .passBegin t b ∧ a ≠ .passEnd t b := by
  cases h with
  | tokenPending h hk' => rw [hk] at hk'; cases hk'
  | pollRun h | skipRun h | runPending h => simpa [h, Fut.closing] using hc
  | acquire h | lockOngoing h | lockWaiting h | take h | miss h | elseReturn h | enter h | select h
  | passBegin h | passEnd h =>
      simp [h, Fut.closing, Fut.past] at hc
  | panic | runOk | runErr | tokenCancelled | onErrPending | onErrReturn | onCancelPending
  | onCancelReturn | lockEnd | leave | release => simp [Fut.closing, Fut.past]

/-- A token stays cancelled. -/
theorem Step.cancelled {t : ℕ} (h : Step s a s') (hk : s.cancelled t = true) :
    s'.cancelled t = true := by
  cases h with
  | other => exact hk
  | own h =>
      cases h with
      | call c h =>
          cases h with
          | @signalled k tok =>
              by_cases ht : t = tok
              · subst ht; simp
              · simpa [ht] using hk
          | _ => exact hk
      | fut u h => rw [h.frame.cancelled]; exact hk
      | background h => rw [h.frame.cancelled]; exact hk
      | drop h =>
          cases h with
          | cancelAll h => simp [hk]
          | _ => exact hk

/-- A pass that can see the cancelled token is the last one. -/
theorem closing_run {t : ℕ} {tr : List Label} (hI : Inv s) (h : Run Step s tr s')
    (hk : s.cancelled t = true) (hc : (s.fut t).closing = true) :
    ∀ b, .passBegin t b ∉ tr ∧ .passEnd t b ∉ tr := by
  refine (h.invariant (I := fun tr s' => (s'.cancelled t = true ∧ (s'.fut t).closing = true) ∧
    ∀ b, .passBegin t b ∉ tr ∧ .passEnd t b ∉ tr) ⟨⟨hk, hc⟩, by simp⟩ ?_).2
  rintro tr s₁ a s₂ hr ⟨⟨hk, hc⟩, hn⟩ hs
  have hstep : (s₂.fut t).closing = true ∧ ∀ b, a ≠ .passBegin t b ∧ a ≠ .passEnd t b := by
    have hne : a.actor ≠ some (.future t) → ∀ b, a ≠ .passBegin t b ∧ a ≠ .passEnd t b :=
      fun hf b => ⟨fun he => hf (by rw [he]; rfl), fun he => hf (by rw [he]; rfl)⟩
    rcases (hI.run hr).mail.fut_cases hs with ⟨u, hf⟩ | ⟨ha, hf⟩
    · by_cases hut : t = u
      · subst hut; exact hf.closing hk hc
      · rw [hf.frame.others t hut]
        exact ⟨hc, hne (by simp [hf.actor, Ne.symm hut])⟩
    · refine ⟨?_, hne (ha t)⟩
      rcases hf t with he | he
      · rwa [he]
      · rw [he.1] at hc; cases hc
  refine ⟨⟨hs.cancelled hk, hstep.1⟩, fun b => ?_⟩
  simp only [List.mem_append, List.mem_singleton, not_or]
  exact ⟨⟨(hn b).1, (hstep.2 b).1.symm⟩, (hn b).2, (hstep.2 b).2.symm⟩

/-! ### Where a cancelled token comes from -/

/-- After future `t` has inserted the context of the task `b`, its token was cancelled, by a
`cancel` of its key or by `Drop`. -/
def Fired (t b : ℕ) (tr : List Label) : Prop :=
  ∃ tr₁ x tr₂, tr = tr₁ ++ x :: tr₂ ∧ .enter t b ∈ tr₁ ∧
    ((∃ c, x = .signalled c (keyOf b) t) ∨ x = .cancelAll)

theorem Fired.append {t b : ℕ} {tr : List Label} (h : Fired t b tr) (l : List Label) :
    Fired t b (tr ++ l) := by
  obtain ⟨tr₁, x, tr₂, rfl, he, hx⟩ := h
  exact ⟨tr₁, x, tr₂ ++ l, by simp, he, hx⟩

/-- The history of a future that has taken a task. -/
structure Traced (tr : List Label) (s : Sys) : Prop where
  taken : ∀ {t b}, (s.fut t).box = some b → .take t b ∈ tr
  entered : ∀ {t b}, (s.fut t).box = some b → (s.fut t).started = true → .enter t b ∈ tr
  fired : ∀ {t b}, (s.fut t).box = some b → s.cancelled t = true → Fired t b tr

/-- A future is given a task by taking it, and started by inserting its context. -/
theorem FutStep.started {t b : ℕ} (h : FutStep t s a s') (hb : (s'.fut t).box = some b) :
    ((s.fut t).box = some b ∨ a = .take t b) ∧
      ((s'.fut t).started = true →
        a = .enter t b ∨ ((s.fut t).box = some b ∧ (s.fut t).started = true)) := by
  cases h with
  | @panic b' h hb' =>
      have hbb : b' = b := by simpa [Fut.box] using hb
      subst hbb
      refine ⟨.inl hb', fun _ => .inr ⟨hb', ?_⟩⟩
      revert h
      cases s.fut t <;> simp [Fut.inCallback, Fut.started, Fut.entered]
  | @release e h =>
      cases e <;> simp_all [Fut.box, Fut.started, Fut.entered, Fut.finished, Fut.panicked]
  | acquire h | lockOngoing h | lockWaiting h | take h | miss h | elseReturn h | enter h | select h
  | passBegin h | pollRun h | skipRun h | runPending h | runOk h | runErr h | tokenPending h
  | tokenCancelled h | passEnd h | onErrPending h | onErrReturn h | onCancelPending h
  | onCancelReturn h | lockEnd h | leave h =>
      simp_all [Fut.box, Fut.started, Fut.entered, Fut.finished, Fut.panicked]

theorem Fut.box_of_started {f : Fut} (h : f.started = true) : ∃ b, f.box = some b := by
  cases f with
  | drop e | done e =>
      cases e <;> simp_all [Fut.started, Fut.entered, Fut.finished, Fut.panicked, Fut.box]
  | _ => simp_all [Fut.started, Fut.entered, Fut.finished, Fut.panicked, Fut.box]

/-- A step that cancels a token is a `cancel` of its key or the pass of `Drop`, and its context
has been inserted. -/
theorem Step.fires {t : ℕ} (hC : Contexts s) (h : Step s a s') (hk : s'.cancelled t = true) :
    s.cancelled t = true ∨
      ((s.fut t).started = true ∧ ((∃ c, a = .signalled c (keyOf t) t) ∨ a = .cancelAll)) := by
  cases h with
  | other => exact .inl hk
  | own h =>
      cases h with
      | call c h =>
          cases h with
          | @signalled k tok h hl =>
              by_cases ht : t = tok
              · subst ht
                exact .inr ⟨hC.started hl, .inl ⟨c, by rw [hC.key hl]⟩⟩
              · left; simpa [ht] using hk
          | _ => exact .inl hk
      | fut u h => exact .inl (h.frame.cancelled ▸ hk)
      | background h => exact .inl (h.frame.cancelled ▸ hk)
      | drop h =>
          cases h with
          | cancelAll h =>
              simp only [Bool.or_eq_true, decide_eq_true_eq, hasToken_iff] at hk
              exact hk.imp_right fun ⟨k, hl⟩ => ⟨hC.started hl, .inr rfl⟩
          | _ => exact .inl hk

theorem Traced.step {tr : List Label} (hT : Traced tr s) (hI : Inv s) (h : Step s a s') :
    Traced (tr ++ [a]) s' := by
  -- what the future had, and what it had done, before the step
  have hback : ∀ {t b}, (s'.fut t).box = some b →
      ((s.fut t).box = some b ∨ a = .take t b) ∧ ((s'.fut t).started = true →
        a = .enter t b ∨ ((s.fut t).box = some b ∧ (s.fut t).started = true)) := by
    intro t b hb
    rcases hI.mail.fut_cases h with ⟨u, hf⟩ | ⟨_, hf⟩
    · by_cases hut : t = u
      · subst hut; exact hf.started hb
      · rw [hf.frame.others t hut] at hb ⊢
        exact ⟨.inl hb, fun hs => .inr ⟨hb, hs⟩⟩
    · rcases hf t with he | he
      · rw [he] at hb ⊢; exact ⟨.inl hb, fun hs => .inr ⟨hb, hs⟩⟩
      · rw [he.2] at hb; cases hb
  have hent : ∀ {t b}, (s'.fut t).box = some b → (s'.fut t).started = true →
      .enter t b ∈ tr ++ [a] := by
    intro t b hb hs
    rcases (hback hb).2 hs with rfl | ⟨hb, hs⟩
    · simp
    · exact List.mem_append_left _ (hT.entered hb hs)
  refine ⟨fun {t b} hb => ?_, hent, fun {t b} hb hk => ?_⟩
  · rcases (hback hb).1 with hb | rfl
    · exact List.mem_append_left _ (hT.taken hb)
    · simp
  · -- the token belongs to a future that had its task before the step
    have hbox : (s.fut t).started = true → (s.fut t).box = some b := fun hs => by
      obtain ⟨b', hb'⟩ := Fut.box_of_started hs
      rw [hb', ← h.box hI.mail hb', hb]
    rcases h.fires hI.contexts hk with hk | ⟨hs, ha⟩
    · exact (hT.fired (hbox (hI.contexts.token hk)) hk).append [a]
    · refine ⟨tr, a, [], rfl, hT.entered (hbox hs) hs, ?_⟩
      rwa [hI.boxes.box_key (hbox hs)]

theorem Traced.of_run {n KEY : ℕ} {tr : List Label} (h : Run Step (init n KEY) tr s) :
    Traced tr s := by
  refine h.invariant (I := Traced) ?_ fun tr s₁ a s₂ hr hT hs => hT.step (Inv.of_run hr) hs
  constructor <;> simp [init, Manager.new, Fut.box]

/-! ### Every task has one ending -/

theorem mem_suspended {x : Callback} {n : ℕ} (h : x ∈ suspended n) : x = .run ∨ x = .pending := by
  rcases List.mem_cons.mp h with h | h
  · exact .inl h
  · exact .inr (List.eq_of_mem_replicate h)

theorem Ended.exclusive {l : List Callback} (h : Ended l) : ¬ (.onErr ∈ l ∧ .onCancel ∈ l) := by
  have hs : ∀ {x n}, x ∈ suspended n → x ≠ .onErr ∧ x ≠ .onCancel := fun hx => by
    rcases mem_suspended hx with rfl | rfl <;> decide
  rintro ⟨he, hc⟩
  cases h with
  | ok n => simpa using (List.mem_append.mp he).resolve_left fun h => (hs h).1 rfl
  | err n => simpa using (List.mem_append.mp hc).resolve_left fun h => (hs h).2 rfl
  | cancelled n => simpa using (List.mem_append.mp he).resolve_left fun h => (hs h).1 rfl

/-- The callbacks made so far can be completed to an ending. -/
theorem Fut.Log.extends {f : Fut} {l : List Callback} (h : f.Log l) :
    ∃ l', Ended l' ∧ l <+: l' := by
  have hnil : l = [] → ∃ l', Ended l' ∧ l <+: l' := fun he =>
    ⟨_, .ok 0, by rw [he]; exact List.nil_prefix⟩
  cases f with
  | unspawned | acquire | lockOngoing | lockWaiting | remove | elseReturn | insert | select =>
      exact hnil h
  | between | pass | polling =>
      obtain ⟨n, rfl⟩ := h
      exact ⟨_, .ok n, List.prefix_append _ _⟩
  | onErr => obtain ⟨n, rfl⟩ := h; exact ⟨_, .err n, List.prefix_rfl⟩
  | onCancel => obtain ⟨n, rfl⟩ := h; exact ⟨_, .cancelled n, List.prefix_rfl⟩
  | lockRemove | removeOngoing | drop | done => exact ⟨l, h, List.prefix_rfl⟩

theorem Fut.Log.ended {f : Fut} {l : List Callback} (h : f.Log l) (hp : f.past = true) :
    Ended l := by
  cases f with
  | lockRemove | removeOngoing | drop | done => exact h
  | _ => cases hp

/-- What the callbacks made on the task `b` are in a run with the trace `tr`, in which none of
them panicked, from a new manager to `s`. -/
structure OneEnding (n KEY : ℕ) (tr : List Label) (s : Sys) (b : ℕ) : Prop where
  /-- In every state they are the beginning of one of the three endings. -/
  form : ∃ l, Ended l ∧ callbacks tr b <+: l
  /-- They are the whole of it when the future has left the `select!`. -/
  ended : ∀ {t}, (s.fut t).box = some b → (s.fut t).past = true → Ended (callbacks tr b)
  /-- There are none if the task was removed from `waiting` before its start. -/
  discarded : (∃ a ∈ tr, a.discards b) → callbacks tr b = []
  /-- There are none on a task that no future has taken. -/
  untaken : (∀ t, .take t b ∉ tr) → callbacks tr b = []
  exclusive : ¬ (.onErr ∈ callbacks tr b ∧ .onCancel ∈ callbacks tr b)
  /-- `on_cancel` comes after the move to `ongoing` and a `cancel` of this key, or `Drop`. -/
  cancelled : ∀ {t tr₁ tr₂}, tr = tr₁ ++ .tokenCancelled t b :: tr₂ →
    .take t b ∈ tr₁ ∧ Fired t b tr₁
  /-- A pass that begins with the token cancelled is the last one. -/
  last_pass : ∀ {t tr₁ tr₂ s₁ s₂}, tr = tr₁ ++ .passBegin t b :: tr₂ →
    Run Step (init n KEY) tr₁ s₁ → Step s₁ (.passBegin t b) s₂ → Run Step s₂ tr₂ s →
    s₁.cancelled t = true → .passBegin t b ∉ tr₂ ∧ .passEnd t b ∉ tr₂
  /-- No callback is made after the key was removed from `ongoing`. -/
  left : ∀ {t tr₁ tr₂}, tr = tr₁ ++ .leave t b :: tr₂ → callbacks tr₂ b = []

/-- **One ending**: on every run, with any number of `cancel`s and with `Drop`, the callbacks made
on a task none of which panics form none or one of the three endings. -/
theorem one_ending {n KEY b : ℕ} {tr : List Label} (h : Run Step (init n KEY) tr s)
    (hp : ∀ t, Label.panic t b ∉ tr) : OneEnding n KEY tr s b := by
  have hL := Logged.of_run h hp
  have hform : ∃ l, Ended l ∧ callbacks tr b <+: l := by
    by_cases hb : ∃ t, (s.fut t).box = some b
    · obtain ⟨t, hb⟩ := hb
      exact (hL t hb).extends
    · rw [silent_of_run h (not_exists.mp hb)]
      exact ⟨_, .ok 0, List.nil_prefix⟩
  constructor
  case form => exact hform
  case ended => exact fun hb hpast => (hL _ hb).ended hpast
  case discarded =>
    rintro ⟨a, ha, hd⟩
    obtain ⟨tr₁, tr₂, rfl⟩ := List.append_of_mem ha
    obtain ⟨m, m', h₁, hs, h₂⟩ := h.split_at
    have hI := Inv.of_run h₁
    have hw := hs.waiting_of_discards hI.boxes hd
    have hquiet := (Quiet.of_discards hI hs hd).run (hI.step hs) h₂
    have hnone : a.callbacks b = [] := by
      cases a <;> first | rfl | exact absurd hd id
    rw [← List.singleton_append, callbacks_append, callbacks_append, callbacks_singleton, hnone,
      hquiet.2, silent_of_run h₁ fun t ht => hI.boxes.box_gone ht hw]
    rfl
  case untaken =>
    exact fun hn => silent_of_run h fun t ht => hn t ((Traced.of_run h).taken ht)
  case exclusive =>
    obtain ⟨l, hl, hpre⟩ := hform
    exact fun hx => hl.exclusive ⟨hpre.subset hx.1, hpre.subset hx.2⟩
  case cancelled =>
    rintro t tr₁ tr₂ rfl
    obtain ⟨m, m', h₁, hs, _⟩ := h.split_at
    have hT := Traced.of_run h₁
    cases hs.futStep rfl with
    | tokenCancelled hpass hk =>
        have hbox : (m.fut t).box = some b := by simp [hpass, Fut.box]
        exact ⟨hT.taken hbox, hT.fired hbox hk⟩
  case last_pass =>
    rintro t tr₁ tr₂ s₁ s₂ rfl h₁ hs h₂ hk
    have hI := (Inv.of_run h₁).step hs
    have hc : (s₂.fut t).closing = true := by
      cases hs.futStep rfl with
      | passBegin hf hperm =>
          have : Branch.cancelled ∈ _ := hperm.mem_iff.mpr (by decide)
          simpa [Fut.closing] using this
    exact closing_run hI h₂ (hs.cancelled hk) hc b
  case left =>
    rintro t tr₁ tr₂ rfl
    obtain ⟨m, m', h₁, hs, h₂⟩ := h.split_at
    have hI := Inv.of_run h₁
    exact ((Quiet.of_leave hI hs).run (hI.step hs) h₂).2

/-- The run of a task that is cancelled before its first poll. -/
theorem one_ending_cancelled : ∃ tr s, OneEnding 1 0 tr s 0 ∧
    callbacks tr 0 = suspended 0 ++ [.dropped, .onCancel] ∧ s.fut 0 = .done (.finished 0) := by
  have h := (((built_run 1 0).trans (launch_run (.built 1 0 0) (by decide))).trans
    (cancel_run (c := 0) (k := 0) (t := 0) rfl rfl rfl rfl (by decide) (by decide))).trans
    (cancelled_run (t := 0) (b := 0) rfl rfl rfl)
  refine ⟨_, _, one_ending h ?_, rfl, rfl⟩
  simp [launchTrace, spawnTrace, startTrace, cancelTrace, cancelledTrace]

end CorustHackathon.TaskManager
