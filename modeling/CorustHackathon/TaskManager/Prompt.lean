import CorustHackathon.Termination
import CorustHackathon.TaskManager.Conservation

/-! # What a `cancel` does, and what it leaves alone

`cancel` of a task that runs sets a flag; the future of the task looks at it once in every pass of
its `select!`.  `toGo` counts the steps that a future takes when its token is cancelled: a pass in
which the token has been polled before the flag was set is followed by one more pass, hence the two
cases of `passToGo`.  `on_err` and `on_cancel` are code of the task and may be pending for as long
as they like: their pending polls are counted apart (`Label.awaits`), and how long the future lasts
is said for callbacks that return.  The only other step of such a future that can be delayed is the
last `self.tasks.ongoing.write()`.

On the other side nothing happens to a task whose key nobody cancels, whatever is done to the
others (`left_alone`). -/

namespace CorustHackathon.TaskManager

open Function (update)

variable {s s' : Sys} {a : Label} {n KEY : ℕ} {tr : List Label}

/-! ### The steps that are left -/

/-- The steps up to the end of a future in a pass with the branches `todo` still to be polled, if
its token is cancelled. -/
def passToGo (todo : List Branch) : ℕ :=
  if .cancelled ∈ todo then 5 + 2 * todo.length else 11 + 2 * todo.length

/-- The steps up to the end of a future, if its token is cancelled; pending polls of `on_err` and
`on_cancel` are not among them. -/
def Fut.toGo : Fut → ℕ
  | unspawned => 0
  | acquire => 17
  | lockOngoing => 16
  | lockWaiting => 15
  | remove => 14
  | elseReturn => 2
  | insert _ => 12
  | select _ => 11
  | between _ _ => 10
  | pass _ _ todo => passToGo todo
  | polling _ todo => passToGo todo + 1
  | onErr _ => 4
  | onCancel _ => 4
  | lockRemove _ => 3
  | removeOngoing _ => 2
  | drop _ => 1
  | done _ => 0

theorem passToGo_cons_run (todo : List Branch) :
    passToGo (.run :: todo) = passToGo todo + 2 := by
  unfold passToGo
  by_cases h : Branch.cancelled ∈ todo
  · simp [h]; omega
  · simp [h]; omega

theorem passToGo_nil : passToGo [] = 11 := rfl

theorem le_passToGo (todo : List Branch) : 5 ≤ passToGo todo := by
  unfold passToGo
  split_ifs <;> omega

theorem passToGo_cancelled (todo : List Branch) :
    passToGo (.cancelled :: todo) = 7 + 2 * todo.length := by
  simp [passToGo]
  omega

/-- A pass that is about to begin polls the token. -/
theorem passToGo_of_perm {order : List Branch} (h : order.Perm [.run, .cancelled]) :
    passToGo order = 9 := by
  have hm : Branch.cancelled ∈ order := h.mem_iff.mpr (by decide)
  unfold passToGo
  rw [if_pos hm, h.length_eq]
  rfl

/-- The future whose `on_err` or `on_cancel` a step polls in vain. -/
def Label.awaits : Label → Option ℕ
  | .onErrPending t _ | .onCancelPending t _ => some t
  | _ => none

/-- A step of the manager that is not a pending poll of `on_err` or `on_cancel`. -/
def Label.works (a : Label) : Bool := a.actor.isSome && a.awaits.isNone

/-- Future `t` has such a step. -/
def CanMove (t : ℕ) (s : Sys) : Prop := ∃ a s', FutStep t s a s' ∧ a.awaits = none

/-- **Every step of a future whose token is cancelled, if it has one, brings it closer to its
end**, but for the polls of a pending callback. -/
theorem FutStep.toGo_le {t : ℕ} (h : FutStep t s a s')
    (hk : ∀ {b en todo}, s.fut t = .pass b en todo → s.cancelled t = true) :
    (s'.fut t).toGo + (if a.awaits = none then 1 else 0) ≤ (s.fut t).toGo := by
  cases h with
  | tokenPending h hc => rw [hk h] at hc; cases hc
  | onErrPending h | onCancelPending h => simp [h, Label.awaits]
  | passBegin h hp => simp [h, Fut.toGo, passToGo_of_perm hp, Label.awaits]
  | pollRun h | skipRun h => simp [h, Fut.toGo, passToGo_cons_run, Label.awaits]
  | runPending h => simp [h, Fut.toGo, Label.awaits]
  | @runOk b todo h | @runErr b todo h =>
      have := le_passToGo todo
      simp only [h, Fut.toGo, Function.update_self, Label.awaits, if_true]
      omega
  | tokenCancelled h =>
      simp only [h, Fut.toGo, Function.update_self, passToGo_cancelled, Label.awaits, if_true]
      omega
  | passEnd h => simp [h, Fut.toGo, passToGo_nil, Label.awaits]
  | @panic b h hb =>
      simp only [Function.update_self, Label.awaits]
      revert h
      cases s.fut t with
      | polling b todo => have := le_passToGo todo; simp [Fut.inCallback, Fut.toGo]; omega
      | onErr | onCancel => simp [Fut.inCallback, Fut.toGo]
      | _ => simp [Fut.inCallback]
  | acquire h | lockOngoing h | lockWaiting h | take h | miss h | elseReturn h | enter h | select h
  | onErrReturn h | onCancelReturn h | lockEnd h | leave h | release h =>
      simp [h, Fut.toGo, Label.awaits]

/-! ### The polls that are left -/

/-- The branches whose poll in this pass is not over. -/
def Fut.todo : Fut → List Branch
  | pass _ _ todo => todo
  | polling _ todo => .run :: todo
  | _ => []

/-- No branch is polled twice in a pass. -/
theorem todo_nodup (h : Run Step (init n KEY) tr s) (t : ℕ) : (s.fut t).todo.Nodup := by
  refine h.invariant (I := fun _ s => ∀ t, (s.fut t).todo.Nodup) (fun _ => List.nodup_nil) ?_ t
  intro tr s a s' hr ih hs t
  rcases (Inv.of_run hr).mail.fut_cases hs with ⟨u, hf⟩ | ⟨_, hf⟩
  · by_cases hut : t = u
    · subst hut
      have hi := ih t
      cases hf with
      | passBegin _ hp => simpa [Fut.todo] using hp.nodup_iff.mpr (by decide)
      | pollRun h => simpa [h, Fut.todo] using hi
      | skipRun h | runPending h | tokenPending h =>
          rw [h] at hi
          simpa [Fut.todo] using hi.of_cons
      | _ => simp [Fut.todo]
    · rw [hf.frame.others t hut]
      exact ih t
  · rcases hf t with he | he
    · rw [he]; exact ih t
    · rw [he.2]; exact List.nodup_nil

/-- The polls of `run` that a pass can still bring, with those of the pass after it. -/
def passPolls (todo : List Branch) : ℕ :=
  todo.count .run + if .cancelled ∈ todo then 0 else 1

/-- The polls of `run` that are left, if the token is cancelled. -/
def Fut.pollsToGo : Fut → ℕ
  | unspawned | acquire | lockOngoing | lockWaiting | remove | insert _ | select _
  | between _ _ => 1
  | pass _ _ todo | polling _ todo => passPolls todo
  | _ => 0

/-- A step that polls `run` in future `t`. -/
def Label.polls (t : ℕ) : Label → Bool
  | .pollRun u _ => u = t
  | _ => false

theorem passPolls_of_perm {order : List Branch} (h : order.Perm [.run, .cancelled]) :
    passPolls order = 1 := by
  have hm : Branch.cancelled ∈ order := h.mem_iff.mpr (by decide)
  unfold passPolls
  rw [if_pos hm, h.count_eq]
  decide

theorem passPolls_cons_run (todo : List Branch) :
    passPolls (.run :: todo) = passPolls todo + 1 := by
  unfold passPolls
  simp
  omega

/-- What is left of a pass without the token is at most one branch. -/
theorem passToGo_le {todo : List Branch} (hn : todo.Nodup) :
    passToGo todo ≤ 13 ∧ passPolls todo ≤ 2 := by
  have hsub : todo ⊆ [.run, .cancelled] := fun x _ => by cases x <;> decide
  have hlen : todo.length ≤ 2 := (hn.subperm hsub).length_le
  have hcount : todo.count .run ≤ 1 := List.nodup_iff_count_le_one.mp hn .run
  unfold passToGo passPolls
  split_ifs with hm
  · omega
  · have hrun : todo ⊆ [.run] := fun x hx => by
      cases x with
      | run => decide
      | cancelled => exact absurd hx hm
    have hone : todo.length ≤ 1 := (hn.subperm hrun).length_le
    omega

/-- A poll of `run` uses one of those that are left, and no step adds to them. -/
theorem FutStep.pollsToGo_le {t : ℕ} (h : FutStep t s a s')
    (hk : ∀ {b en todo}, s.fut t = .pass b en todo → s.cancelled t = true) :
    (s'.fut t).pollsToGo + (if a.polls t then 1 else 0) ≤ (s.fut t).pollsToGo := by
  cases h with
  | tokenPending h hc => rw [hk h] at hc; cases hc
  | passBegin h hp => simp [h, Fut.pollsToGo, Label.polls, passPolls_of_perm hp]
  | pollRun h => simp [h, Fut.pollsToGo, Label.polls, passPolls_cons_run]
  | skipRun h => simp [h, Fut.pollsToGo, Label.polls, passPolls_cons_run]
  | passEnd h => simp [h, Fut.pollsToGo, Label.polls, passPolls]
  | acquire h | lockOngoing h | lockWaiting h | take h | miss h | elseReturn h | enter h | select h
  | runPending h | runOk h | runErr h | tokenCancelled h | onErrPending h | onErrReturn h
  | onCancelPending h | onCancelReturn h | panic h | lockEnd h | leave h | release h =>
      simp [h, Fut.pollsToGo, Label.polls]

/-! ### A cancelled future -/

/-- The future waits for the lock of `ongoing`, to remove its key. -/
def Sys.AwaitsOngoing (s : Sys) (t : ℕ) : Prop :=
  (∃ b, s.fut t = .lockRemove b) ∧ s.ongoingLock ≠ .free

/-- A future with a cancelled token, in a run. -/
structure Stopping (s : Sys) (t : ℕ) : Prop where
  inv : Inv s
  cancelled : s.cancelled t = true

namespace Stopping

variable {t : ℕ}

theorem started (hS : Stopping s t) : (s.fut t).started = true := hS.inv.contexts.token hS.cancelled

theorem step (hS : Stopping s t) (h : Step s a s') : Stopping s' t :=
  ⟨hS.inv.step h, h.cancelled hS.cancelled⟩

/-- A step of somebody else leaves the future where it is. -/
theorem fut_cases (hS : Stopping s t) (h : Step s a s') :
    FutStep t s a s' ∨ (a.actor ≠ some (.future t) ∧ s'.fut t = s.fut t) := by
  rcases hS.inv.mail.fut_cases h with ⟨u, hf⟩ | ⟨ha, hf⟩
  · by_cases hut : t = u
    · subst hut
      exact .inl hf
    · have ha : a.actor ≠ some (.future t) := by simp [hf.actor, Ne.symm hut]
      exact .inr ⟨ha, hf.frame.others t hut⟩
  · refine .inr ⟨ha t, (hf t).resolve_right fun he => ?_⟩
    have := hS.started
    rw [he.1] at this
    cases this

/-- **Step lemma**: each step of the future brings it closer to its end, no other one matters. -/
theorem toGo_step (hS : Stopping s t) (h : Step s a s') :
    (s'.fut t).toGo + (if a.actor = some (.future t) ∧ a.awaits = none then 1 else 0) ≤
      (s.fut t).toGo := by
  rcases hS.fut_cases h with hf | ⟨ha, he⟩
  · simpa [hf.actor] using hf.toGo_le fun _ => hS.cancelled
  · rw [if_neg (fun h => ha h.1), he, Nat.add_zero]

theorem polls_step (hS : Stopping s t) (h : Step s a s') :
    (s'.fut t).pollsToGo + (if a.polls t then 1 else 0) ≤ (s.fut t).pollsToGo := by
  rcases hS.fut_cases h with hf | ⟨ha, he⟩
  · exact hf.pollsToGo_le fun _ => hS.cancelled
  · have hp : a.polls t = false := by
      by_contra hp
      cases a with
      | pollRun u b =>
          have hut : u = t := by simpa [Label.polls] using hp
          exact ha (by rw [hut]; rfl)
      | _ => simp [Label.polls] at hp
    simp [hp, he]

/-- The future can step, unless it has ended or waits for `ongoing`. -/
theorem enabled (hS : Stopping s t) :
    ((s.fut t).ended = true ∨ s.AwaitsOngoing t) ∨ CanMove t s := by
  have hst := hS.started
  cases hf : s.fut t with
  | unspawned | acquire | lockOngoing | lockWaiting | remove | elseReturn | insert =>
      rw [hf] at hst
      cases hst
  | select b => exact .inr ⟨_, _, .select hf, rfl⟩
  | between b en => exact .inr ⟨_, _, .passBegin hf (.refl _), rfl⟩
  | polling b todo => exact .inr ⟨_, _, .runPending hf, rfl⟩
  | onErr b => exact .inr ⟨_, _, .onErrReturn hf, rfl⟩
  | onCancel b => exact .inr ⟨_, _, .onCancelReturn hf, rfl⟩
  | removeOngoing b => exact .inr ⟨_, _, .leave hf, rfl⟩
  | drop e => exact .inr ⟨_, _, .release hf, rfl⟩
  | done e => exact .inl (.inl rfl)
  | lockRemove b =>
      by_cases hl : s.ongoingLock = .free
      · exact .inr ⟨_, _, .lockEnd hf hl, rfl⟩
      · exact .inl (.inr ⟨⟨b, hf⟩, hl⟩)
  | pass b en todo =>
      cases todo with
      | nil => exact .inr ⟨_, _, .passEnd hf, rfl⟩
      | cons x todo =>
          cases x with
          | cancelled => exact .inr ⟨_, _, .tokenCancelled hf hS.cancelled, rfl⟩
          | run =>
              cases en with
              | true => exact .inr ⟨_, _, .pollRun hf, rfl⟩
              | false => exact .inr ⟨_, _, .skipRun hf, rfl⟩

theorem toGo_le (hS : Stopping s t) (hn : (s.fut t).todo.Nodup) :
    (s.fut t).toGo ≤ 13 ∧ (s.fut t).pollsToGo ≤ 2 := by
  have hst := hS.started
  revert hst hn
  cases s.fut t with
  | pass b en todo => exact fun hn _ => passToGo_le hn
  | polling b todo =>
      intro hn _
      have hle : passToGo (.run :: todo) ≤ 13 ∧ passPolls (.run :: todo) ≤ 2 := passToGo_le hn
      rw [passToGo_cons_run, passPolls_cons_run] at hle
      show passToGo todo + 1 ≤ 13 ∧ passPolls todo ≤ 2
      omega
  | _ => simp [Fut.started, Fut.entered, Fut.finished, Fut.panicked, Fut.toGo, Fut.pollsToGo]

end Stopping

/-- What is in store for the future `t` from `s` on. -/
structure Stops (s : Sys) (t : ℕ) : Prop where
  /-- At most 13 steps beside the pending polls of its `on_err` or `on_cancel`, and nothing but the
  lock of `ongoing` can keep it from such a step. -/
  ends : Finishes Step (fun a => a.actor = some (.future t) ∧ a.awaits = none)
    (fun s => (s.fut t).ended = true ∨ s.AwaitsOngoing t) 13 s
  /-- If the callback returns after `polls` pending polls, these are all that is added. -/
  bounded : ∀ {tr s'} (polls : ℕ), Run Step s tr s' →
    tr.countP (fun a => a.awaits = some t) ≤ polls →
      tr.countP (fun a => a.actor = some (.future t)) ≤ 13 + polls
  /-- `run` is polled at most twice. -/
  polls : ∀ {tr s'}, Run Step s tr s' → tr.countP (Label.polls t) ≤ 2
  /-- No second pass follows one that polls the token. -/
  last_pass : (s.fut t).closing = true → ∀ {tr s'}, Run Step s tr s' →
    ∀ b, .passBegin t b ∉ tr ∧ .passEnd t b ∉ tr

/-- Of the steps of a future, those that are pending polls of its callback. -/
theorem countP_future_le (t : ℕ) (tr : List Label) :
    tr.countP (fun a => a.actor = some (.future t)) ≤
      tr.countP (fun a => a.actor = some (.future t) ∧ a.awaits = none) +
        tr.countP fun a => a.awaits = some t := by
  refine le_trans (List.countP_mono_left fun a _ ha => ?_) (countP_or_le _ _ tr)
  have hactor : a.actor = some (.future t) := of_decide_eq_true ha
  cases a with
  | onErrPending u b | onCancelPending u b =>
      have hut : u = t := by simpa [Label.actor] using hactor
      simp [Label.awaits, hut]
  | _ => simpa [Label.awaits] using ha

/-- The key that a `cancel` is about. -/
def Call.cancels : Call → Option ℕ
  | lockRemove k | remove k | readOngoing k | get k => some k
  | _ => none

/-- The end of task `d` was asked for: by its key, or by dropping the manager. -/
def Asked (tr : List Label) (d : ℕ) : Prop :=
  (∃ c, .callCancel c (keyOf d) ∈ tr) ∨ .dropBegin ∈ tr

theorem Asked.mono {d : ℕ} {tr' : List Label} (h : Asked tr d) (hs : tr ⊆ tr') : Asked tr' d :=
  h.imp (fun ⟨c, hc⟩ => ⟨c, hs hc⟩) fun hd => hs hd

/-- Whoever is in `cancel` has called it. -/
theorem callCancel_of_run (h : Run Step (init n KEY) tr s) {c k : ℕ}
    (hc : (s.call c).cancels = some k) : .callCancel c k ∈ tr := by
  refine h.invariant (I := fun tr s => (s.call c).cancels = some k → .callCancel c k ∈ tr)
    (fun hc => by cases hc) (fun tr s a s' _ ih hs hc => ?_) hc
  rcases hs.call_cases c with he | hf
  · exact List.mem_append_left _ (ih (he ▸ hc))
  · cases hf with
    | @callCancel k' =>
        have hk : k' = k := by simpa [Call.cancels] using hc
        subst hk
        simp
    | lockRemove hp | notWaiting hp | readOngoing hp =>
        exact List.mem_append_left _ (ih (by simpa [hp, Call.cancels] using hc))
    | callSpawn | fetchAdd | lockInsert | insert | spawnOk | spawnErr | removed | signalled
    | notFound => simp [Call.cancels] at hc

/-- `Drop` has begun where it has gone on. -/
theorem dropBegin_of_run (h : Run Step (init n KEY) tr s) (hd : s.dropping ≠ .alive) :
    .dropBegin ∈ tr := by
  refine h.invariant (I := fun tr s => s.dropping ≠ .alive → .dropBegin ∈ tr)
    (fun hd => absurd rfl hd) (fun tr s a s' _ ih hs hd => ?_) hd
  have keep : s'.dropping = s.dropping → .dropBegin ∈ tr ++ [a] := fun he =>
    List.mem_append_left _ (ih (he ▸ hd))
  cases hs with
  | other => exact keep rfl
  | own hs =>
      cases hs with
      | call c hs => exact keep hs.frame.dropping
      | fut t hs => exact keep hs.frame.dropping
      | background hs => exact keep hs.frame.dropping
      | drop hs =>
          cases hs with
          | dropBegin => simp
          | dropLockWaiting h | drain h | dropLockOngoing h | cancelAll h | takeTx h | joinOk h
          | joinErr h => exact List.mem_append_left _ (ih (by rw [h]; decide))

/-- A cancelled token was asked to be. -/
theorem asked_of_cancelled (h : Run Step (init n KEY) tr s) {d : ℕ} (hk : s.cancelled d = true) :
    Asked tr d := by
  refine h.invariant (I := fun tr s => s.cancelled d = true → Asked tr d) (fun hk => by cases hk)
    (fun tr s a s' hr ih hs hk => ?_) hk
  have hsub : tr ⊆ tr ++ [a] := List.subset_append_left _ _
  rcases hs.fires (Inv.of_run hr).contexts hk with hk | ⟨-, ⟨c, rfl⟩ | rfl⟩
  · exact (ih hk).mono hsub
  · cases hs.callStep rfl with
    | signalled hc hl => exact .inl ⟨c, hsub (callCancel_of_run hr (by rw [hc]; rfl))⟩
  · cases hs.dropStep rfl with
    | cancelAll hd => exact .inr (hsub (dropBegin_of_run hr (by rw [hd]; decide)))

/-- In a `select!` whose first branch is disabled. -/
def Fut.disabled : Fut → Bool
  | between _ en | pass _ en _ => !en
  | _ => false

/-- The guard of a `select!` was false because its token was cancelled. -/
theorem cancelled_of_disabled (h : Run Step (init n KEY) tr s) {t : ℕ}
    (hf : (s.fut t).disabled = true) : s.cancelled t = true := by
  refine h.invariant (I := fun _ s => (s.fut t).disabled = true → s.cancelled t = true)
    (fun hf => by cases hf) (fun tr s a s' hr ih hs hf => ?_) hf
  rcases (Inv.of_run hr).mail.fut_cases hs with ⟨u, hu⟩ | ⟨_, hu⟩
  · rw [hu.frame.cancelled]
    by_cases hut : t = u
    · subst hut
      cases hu with
      | select h =>
          simp only [Function.update_self, Fut.disabled, Bool.not_not] at hf
          exact hf
      | skipRun h => exact ih (by rw [h]; rfl)
      | passBegin h | tokenPending h | passEnd h =>
          exact ih (by simpa [h, Fut.disabled] using hf)
      | _ => simp [Fut.disabled] at hf
    · rw [hu.frame.others t hut] at hf
      exact ih hf
  · rcases hu t with he | he
    · rw [he] at hf
      exact hs.cancelled (ih hf)
    · rw [he.2] at hf
      cases hf

/-- What has happened to the task `d`: nothing but what its own future and its callbacks do. -/
structure LeftAlone (tr : List Label) (s : Sys) (d : ℕ) : Prop where
  token : s.cancelled d = false
  /-- It was not taken back, by a `cancel` or by `Drop`. -/
  kept : ∀ a ∈ tr, ¬ a.discards d
  /-- Its `run` was polled in every pass. -/
  polled : ∀ t, .skipRun t d ∉ tr
  /-- Its `on_cancel` was never called. -/
  silent : ∀ t, .tokenCancelled t d ∉ tr
  /-- Its future has not returned early. -/
  found : s.KEY ≤ usizeSize → .miss d ∉ tr

/-- **A task is left alone until somebody asks for its end**: whatever is spawned, cancelled, failed
or panics besides. -/
theorem left_alone (h : Run Step (init n KEY) tr s) {d : ℕ} (hd : ¬ Asked tr d) :
    LeftAlone tr s d := by
  -- a step about `d` is preceded by the request
  have before : ∀ {a}, a ∈ tr → ∃ tr₁ m m', tr₁ ⊆ tr ∧ Run Step (init n KEY) tr₁ m ∧
      Step m a m' ∧ m.KEY ≤ s.KEY := fun {a} ha => by
    obtain ⟨tr₁, tr₂, rfl⟩ := List.append_of_mem ha
    obtain ⟨m, m', h₁, hs, h₂⟩ := h.split_at
    exact ⟨tr₁, m, m', List.subset_append_left _ _, h₁, hs, KEY_le_of_run (.cons hs h₂)⟩
  -- a cancelled token of the future that runs `d`
  have token : ∀ {t m tr₁}, tr₁ ⊆ tr → Run Step (init n KEY) tr₁ m → (m.fut t).box = some d →
      m.cancelled t = true → False := fun {t m tr₁} hsub h₁ hb hk => by
    have hkey := (Inv.of_run h₁).boxes.box_key hb
    have hA := (asked_of_cancelled h₁ hk).mono hsub
    unfold Asked at hA hd
    rw [← hkey] at hA
    exact hd hA
  have kept : ∀ a ∈ tr, ¬ a.discards d := fun a ha hx => by
    obtain ⟨tr₁, m, m', hsub, h₁, hs, -⟩ := before ha
    have hw := hs.waiting_of_discards (Inv.of_run h₁).boxes hx
    refine hd (Asked.mono ?_ hsub)
    cases a with
    | removed c k b =>
        cases hs.callStep rfl with
        | removed hc hl =>
            rw [Label.discards] at hx
            subst hx
            have hk := (Inv.of_run h₁).boxes.waiting_key hl
            exact .inl ⟨c, callCancel_of_run h₁ (by rw [hc, ← hk]; rfl)⟩
    | drain w =>
        cases hs.dropStep rfl with
        | drain hd => exact .inr (dropBegin_of_run h₁ (by rw [hd]; decide))
    | _ => exact hx.elim
  refine ⟨?_, kept, fun t ht => ?_, fun t ht => ?_, fun hK ht => ?_⟩
  · by_contra hk
    exact hd (asked_of_cancelled h (by simpa using hk))
  · obtain ⟨tr₁, m, m', hsub, h₁, hs, -⟩ := before ht
    cases hs.futStep rfl with
    | skipRun hf =>
        exact token hsub h₁ (by rw [hf]; rfl) (cancelled_of_disabled h₁ (by rw [hf]; rfl))
  · obtain ⟨tr₁, m, m', hsub, h₁, hs, -⟩ := before ht
    cases hs.futStep rfl with
    | tokenCancelled hf hk => exact token hsub h₁ (by rw [hf]; rfl) hk
  · obtain ⟨tr₁, m, m', hsub, h₁, hs, hKm⟩ := before ht
    obtain ⟨a, ha, hx⟩ := discards_of_miss h₁ (hKm.trans hK) hs
    exact kept a (hsub ha) hx

/-- Of two running tasks the first is cancelled. -/
theorem left_alone_second : ∃ tr s, Run Step (init 2 0) tr s ∧ .signalled 0 0 0 ∈ tr ∧
    s.fut 1 = .between 1 true ∧ LeftAlone tr s 1 := by
  have hrest := (Sys.Rest.built 2 0 0).launched (by decide)
  have h₁ := (built_run 2 0).trans (launch_run (.built 2 0 0) Nat.two_pos)
  have h := (h₁.trans (launch_run hrest Nat.one_pos)).trans
    (cancel_run (c := 0) (k := 0) (t := 0) rfl rfl rfl rfl (by decide) (by decide))
  refine ⟨_, _, h, ?_, rfl, left_alone h ?_⟩
  · simp [cancelTrace]
  · rintro (⟨c, hc⟩ | hc)
    · simp [launchTrace, spawnTrace, startTrace, cancelTrace] at hc
      exact absurd hc.2 (by decide)
    · simp [launchTrace, spawnTrace, startTrace, cancelTrace] at hc

end CorustHackathon.TaskManager
