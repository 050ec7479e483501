import CorustHackathon.TaskManager.LockInvariant

/-! # The task manager: the invariant of every run

Four parts, each kept by every step whatever the number of calls of `spawn_task`:

* `Mail`: a `Task` is drawn once, sent once, received once, and its future is an entry of the
  `JoinSet` until it has ended;
* `Boxes`: a boxed task is in `waiting` under its own key until some future takes it out, and
  no two futures have taken the same one;
* `Contexts`: what `ongoing` holds was inserted by a future that has not removed it, and only
  tokens that were in `ongoing` are cancelled;
* `LockInv`. -/

namespace CorustHackathon.TaskManager

open Function (update)

/-- Where a `Task` can be. -/
structure Mail (s : Sys) : Prop where
  draw_lt : ∀ {c d}, (s.call c).draw = some d → d < s.KEY
  draw_inj : ∀ {c c' d}, (s.call c).draw = some d → (s.call c').draw = some d → c = c'
  draw_unsent : ∀ {c d}, (s.call c).draw = some d → d ∉ s.chan
  draw_unspawned : ∀ {c d}, (s.call c).draw = some d → s.fut d = .unspawned
  chan_lt : ∀ {d}, d ∈ s.chan → d < s.KEY
  chan_unspawned : ∀ {d}, d ∈ s.chan → s.fut d = .unspawned
  chan_nodup : s.chan.Nodup
  fut_lt : ∀ {t}, s.fut t ≠ .unspawned → t < s.KEY
  js_nodup : s.js.Nodup
  js_spawned : ∀ {t}, t ∈ s.js → s.fut t ≠ .unspawned
  js_unended : ∀ {t}, s.fut t ≠ .unspawned → t ∈ s.js ∨ (s.fut t).ended = true

namespace Mail

variable {s s' : Sys} {a : Label}

theorem init (n KEY : ℕ) : Mail (init n KEY) := by
  constructor <;> simp [TaskManager.init, Manager.new, Call.draw]

theorem futStep {t : ℕ} (hM : Mail s) (h : FutStep t s a s') : Mail s' := by
  have f := h.frame
  have hs : ∀ u, s'.fut u ≠ .unspawned ↔ s.fut u ≠ .unspawned := by
    intro u
    by_cases hu : u = t
    · subst hu; exact iff_of_true f.spawned' f.spawned
    · rw [f.others u hu]
  have hs' : ∀ u, s.fut u = .unspawned → s'.fut u = .unspawned := fun u hu =>
    not_not.mp fun hn => (hs u).mp hn hu
  refine ⟨?_, ?_, ?_, ?_, ?_, ?_, ?_, ?_, ?_, ?_, ?_⟩
  · rw [f.call, f.KEY]; exact hM.draw_lt
  · rw [f.call]; exact hM.draw_inj
  · rw [f.call, f.chan]; exact hM.draw_unsent
  · rw [f.call]; exact fun hd => hs' _ (hM.draw_unspawned hd)
  · rw [f.chan, f.KEY]; exact hM.chan_lt
  · rw [f.chan]; exact fun hd => hs' _ (hM.chan_unspawned hd)
  · rw [f.chan]; exact hM.chan_nodup
  · rw [f.KEY]; exact fun hu => hM.fut_lt ((hs _).mp hu)
  · rw [f.js]; exact hM.js_nodup
  · rw [f.js]; exact fun hu => (hs _).mpr (hM.js_spawned hu)
  · intro u hu
    rw [f.js]
    by_cases hut : u = t
    · subst hut
      exact (hM.js_unended f.spawned).imp_right fun he => by rw [f.live] at he; cases he
    · rw [f.others u hut] at hu ⊢
      exact hM.js_unended hu

/-- A caller that moves without drawing or sending. -/
theorem congr {c : ℕ} {x : Call} (hM : Mail s) (hc : s'.call = update s.call c x)
    (hx : ∀ d, x.draw = some d → (s.call c).draw = some d) (hf : s'.fut = s.fut)
    (hchan : s'.chan = s.chan) (hjs : s'.js = s.js) (hK : s'.KEY = s.KEY) : Mail s' := by
  have hd : ∀ c' d, (s'.call c').draw = some d → (s.call c').draw = some d := by
    intro c' d
    rw [hc]
    by_cases h : c' = c
    · subst h; simpa using hx d
    · simp [h]
  constructor
  · rw [hK]; exact fun h => hM.draw_lt (hd _ _ h)
  · exact fun h h' => hM.draw_inj (hd _ _ h) (hd _ _ h')
  · rw [hchan]; exact fun h => hM.draw_unsent (hd _ _ h)
  · rw [hf]; exact fun h => hM.draw_unspawned (hd _ _ h)
  · rw [hchan, hK]; exact hM.chan_lt
  · rw [hchan, hf]; exact hM.chan_unspawned
  · rw [hchan]; exact hM.chan_nodup
  · rw [hf, hK]; exact hM.fut_lt
  · rw [hjs]; exact hM.js_nodup
  · rw [hjs, hf]; exact hM.js_spawned
  · rw [hjs, hf]; exact hM.js_unended

theorem callStep {c : ℕ} (hM : Mail s) (h : CallStep c s a s') : Mail s' := by
  cases h with
  | fetchAdd h =>
      have hne : ∀ {c' d}, (update s.call c (.lockInsert s.KEY) c').draw = some d →
          (c' = c ∧ d = s.KEY) ∨ (c' ≠ c ∧ (s.call c').draw = some d) := by
        intro c' d hd
        by_cases hc : c' = c
        · subst hc
          left; simpa [Call.draw, eq_comm] using hd
        · right; simpa [hc] using hd
      have hnew : s.fut s.KEY = .unspawned := not_not.mp fun hn => absurd (hM.fut_lt hn) (by simp)
      constructor <;> dsimp only
      · intro c' d hd
        rcases hne hd with ⟨_, rfl⟩ | ⟨_, hd⟩
        · simp
        · exact Nat.lt_succ_of_lt (hM.draw_lt hd)
      · intro c₁ c₂ d h₁ h₂
        rcases hne h₁ with ⟨hc₁, hd₁⟩ | ⟨_, hd₁⟩ <;> rcases hne h₂ with ⟨hc₂, hd₂⟩ | ⟨_, hd₂⟩
        · rw [hc₁, hc₂]
        · exact absurd (hd₁ ▸ hM.draw_lt hd₂) (lt_irrefl _)
        · exact absurd (hd₂ ▸ hM.draw_lt hd₁) (lt_irrefl _)
        · exact hM.draw_inj hd₁ hd₂
      · intro c' d hd
        rcases hne hd with ⟨_, rfl⟩ | ⟨_, hd⟩
        · exact fun hm => absurd (hM.chan_lt hm) (by simp)
        · exact hM.draw_unsent hd
      · intro c' d hd
        rcases hne hd with ⟨_, rfl⟩ | ⟨_, hd⟩
        · exact hnew
        · exact hM.draw_unspawned hd
      · exact fun hd => Nat.lt_succ_of_lt (hM.chan_lt hd)
      · exact hM.chan_unspawned
      · exact hM.chan_nodup
      · exact fun ht => Nat.lt_succ_of_lt (hM.fut_lt ht)
      · exact hM.js_nodup
      · exact hM.js_spawned
      · exact hM.js_unended
  | @spawnOk d h hr =>
      have hd : (s.call c).draw = some d := by simp [h, Call.draw]
      have hne : ∀ {c' d'}, (update s.call c .idle c').draw = some d' →
          d' ≠ d ∧ (s.call c').draw = some d' := by
        intro c' d' hd'
        by_cases hc : c' = c
        · subst hc; simp [Call.draw] at hd'
        · rw [Function.update_of_ne hc] at hd'
          exact ⟨fun he => hc (hM.draw_inj (he ▸ hd') hd), hd'⟩
      constructor <;> dsimp only
      · exact fun hd' => hM.draw_lt (hne hd').2
      · exact fun h₁ h₂ => hM.draw_inj (hne h₁).2 (hne h₂).2
      · intro c' d' hd'
        simp [hM.draw_unsent (hne hd').2, (hne hd').1]
      · exact fun hd' => hM.draw_unspawned (hne hd').2
      · intro d' hd'
        rcases List.mem_append.mp hd' with hd' | hd'
        · exact hM.chan_lt hd'
        · rw [List.mem_singleton.mp hd']; exact hM.draw_lt hd
      · intro d' hd'
        rcases List.mem_append.mp hd' with hd' | hd'
        · exact hM.chan_unspawned hd'
        · rw [List.mem_singleton.mp hd']; exact hM.draw_unspawned hd
      · exact List.nodup_append.mpr ⟨hM.chan_nodup, List.nodup_singleton d, fun x hx y hy => by
          rw [List.mem_singleton.mp hy]; exact fun he => hM.draw_unsent hd (he ▸ hx)⟩
      · exact hM.fut_lt
      · exact hM.js_nodup
      · exact hM.js_spawned
      · exact hM.js_unended
  | callSpawn _ h | lockInsert h | insert h | spawnErr h | callCancel _ h | lockRemove h | removed h
  | notWaiting h | readOngoing h | signalled h | notFound h =>
      exact hM.congr rfl (by simp [h, Call.draw]) rfl rfl rfl rfl

theorem backgroundStep (hM : Mail s) (h : BackgroundStep s a s') : Mail s' := by
  cases h with
  | @receive t rest hb hc =>
      have hchan : ∀ {d}, d ∈ rest → d ∈ s.chan := fun hd => by rw [hc]; exact .tail _ hd
      have ht : t ∈ s.chan := by rw [hc]; exact .head _
      have hnd : t ∉ rest ∧ rest.Nodup := List.nodup_cons.mp (hc ▸ hM.chan_nodup)
      have hun := hM.chan_unspawned ht
      have hother : ∀ {u}, u ≠ t → update s.fut t .acquire u = s.fut u := fun hu => by simp [hu]
      constructor <;> dsimp only
      · exact hM.draw_lt
      · exact hM.draw_inj
      · exact fun hd hm => hM.draw_unsent hd (hchan hm)
      · intro c d hd
        rw [hother fun he => hM.draw_unsent hd (by rw [he]; exact ht)]
        exact hM.draw_unspawned hd
      · exact fun hd => hM.chan_lt (hchan hd)
      · intro d hd
        rw [hother fun he => hnd.1 (by rw [← he]; exact hd)]
        exact hM.chan_unspawned (hchan hd)
      · exact hnd.2
      · intro u hu
        by_cases hut : u = t
        · rw [hut]; exact hM.chan_lt ht
        · rw [hother hut] at hu; exact hM.fut_lt hu
      · exact List.nodup_cons.mpr ⟨fun hm => hM.js_spawned hm hun, hM.js_nodup⟩
      · intro u hu
        by_cases hut : u = t
        · simp [hut]
        · rw [hother hut]
          exact hM.js_spawned ((List.mem_cons.mp hu).resolve_left hut)
      · intro u hu
        by_cases hut : u = t
        · left; rw [hut]; exact .head _
        · rw [hother hut] at hu ⊢
          exact (hM.js_unended hu).imp_left (.tail _)
  | @joinNext t hb ht he | @joinAll t hb ht he =>
      refine ⟨hM.draw_lt, hM.draw_inj, hM.draw_unsent, hM.draw_unspawned, hM.chan_lt,
        hM.chan_unspawned, hM.chan_nodup, hM.fut_lt, hM.js_nodup.erase t,
        fun hu => hM.js_spawned (List.mem_of_mem_erase hu), fun {u} hu => ?_⟩
      by_cases hut : u = t
      · right; rw [hut]; exact he
      · exact (hM.js_unended hu).imp_left fun hm => (List.mem_erase_of_ne hut).mpr hm
  | buildPanic hb =>
      exact ⟨hM.draw_lt, hM.draw_inj, fun _ => by simp, hM.draw_unspawned, by simp, by simp,
        List.nodup_nil, hM.fut_lt, hM.js_nodup, hM.js_spawned, hM.js_unended⟩
  | built | closed | exit =>
      exact ⟨hM.draw_lt, hM.draw_inj, hM.draw_unsent, hM.draw_unspawned, hM.chan_lt,
        hM.chan_unspawned, hM.chan_nodup, hM.fut_lt, hM.js_nodup, hM.js_spawned, hM.js_unended⟩

theorem dropStep (hM : Mail s) (h : DropStep s a s') : Mail s' := by
  cases h <;> exact ⟨hM.draw_lt, hM.draw_inj, hM.draw_unsent, hM.draw_unspawned, hM.chan_lt,
    hM.chan_unspawned, hM.chan_nodup, hM.fut_lt, hM.js_nodup, hM.js_spawned, hM.js_unended⟩

theorem step (hM : Mail s) (h : Step s a s') : Mail s' := by
  cases h with
  | other =>
      exact ⟨fun hd => Nat.lt_succ_of_lt (hM.draw_lt hd), hM.draw_inj, hM.draw_unsent,
        hM.draw_unspawned, fun hd => Nat.lt_succ_of_lt (hM.chan_lt hd), hM.chan_unspawned,
        hM.chan_nodup, fun ht => Nat.lt_succ_of_lt (hM.fut_lt ht), hM.js_nodup, hM.js_spawned,
        hM.js_unended⟩
  | own h =>
      cases h with
      | call c h => exact hM.callStep h
      | fut t h => exact hM.futStep h
      | background h => exact hM.backgroundStep h
      | drop h => exact hM.dropStep h

/-- The background thread spawns futures and moves none. -/
theorem backgroundStep_fut (hM : Mail s) (h : BackgroundStep s a s') (u : ℕ) :
    s'.fut u = s.fut u ∨ (s.fut u = .unspawned ∧ s'.fut u = .acquire) := by
  cases h with
  | @receive t rest hb hc =>
      have ht := hM.chan_unspawned (d := t) (by simp [hc])
      by_cases hu : u = t
      · subst hu; right; simp [ht]
      · left; simp [hu]
  | _ => exact .inl rfl

/-- A step is one of a future, or one that spawns a future or leaves them all. -/
theorem fut_cases (hM : Mail s) (h : Step s a s') :
    (∃ t, FutStep t s a s') ∨
    ((∀ t, a.actor ≠ some (.future t)) ∧
      ∀ u, s'.fut u = s.fut u ∨ (s.fut u = .unspawned ∧ s'.fut u = .acquire)) := by
  cases h with
  | other => exact .inr ⟨nofun, fun _ => .inl rfl⟩
  | own h =>
      cases h with
      | fut t h => exact .inl ⟨t, h⟩
      | call c h => exact .inr ⟨by simp [h.actor], fun u => .inl (by rw [h.frame.fut])⟩
      | background h => exact .inr ⟨by simp [h.actor], hM.backgroundStep_fut h⟩
      | drop h => exact .inr ⟨by simp [h.actor], fun u => .inl (by rw [h.frame.fut])⟩

end Mail

/-! ### The boxed tasks -/

/-- What a step of a future does to `waiting`: it takes a task, or nothing. -/
theorem FutStep.boxes {t : ℕ} {s s' : Sys} {a : Label} (h : FutStep t s a s') :
    (∃ b, s.fut t = .remove ∧ s.waiting.lookup (keyOf t) = some b ∧ s'.fut t = .insert b ∧
      s'.waiting = s.waiting.erase (keyOf t)) ∨
    (s'.waiting = s.waiting ∧ (s'.fut t).box = (s.fut t).box ∧
      ((s.fut t).before = true →
        (s'.fut t).before = true ∨ s.waiting.lookup (keyOf t) = none)) := by
  cases h with
  | @take b h hb => exact .inl ⟨b, h, hb, by simp, rfl⟩
  | miss h hb => exact .inr ⟨rfl, by simp [h, Fut.box], fun _ => .inr hb⟩
  | panic h hb =>
      refine .inr ⟨rfl, by rw [hb]; simp [Fut.box], fun hn => ?_⟩
      revert h hn
      cases s.fut t <;> simp [Fut.inCallback, Fut.before]
  | @release e h =>
      refine .inr ⟨rfl, ?_, by simp [h, Fut.before]⟩
      cases e <;> simp [h, Fut.box]
  | acquire h | lockOngoing h | lockWaiting h | elseReturn h | enter h | select h | passBegin h
  | pollRun h | skipRun h | runPending h | runOk h | runErr h | tokenPending h | tokenCancelled h
  | passEnd h | onErrPending h | onErrReturn h | onCancelPending h | onCancelReturn h | lockEnd h
  | leave h =>
      exact .inr ⟨rfl, by simp [h, Fut.box], by simp [h, Fut.before]⟩

/-- Where a boxed task can be. -/
structure Boxes (s : Sys) : Prop where
  waiting_key : ∀ {k b}, s.waiting.lookup k = some b → keyOf b = k
  waiting_lt : ∀ {k b}, s.waiting.lookup k = some b → b < s.KEY
  waiting_before : ∀ {k b}, s.waiting.lookup k = some b → (s.fut b).before = true
  waiting_delivered : ∀ {k b c}, s.waiting.lookup k = some b → (s.call c).undelivered ≠ some b
  box_key : ∀ {t b}, (s.fut t).box = some b → keyOf b = keyOf t
  box_lt : ∀ {t b}, (s.fut t).box = some b → b < s.KEY
  box_gone : ∀ {t b k}, (s.fut t).box = some b → s.waiting.lookup k ≠ some b
  box_delivered : ∀ {t b c}, (s.fut t).box = some b → (s.call c).undelivered ≠ some b
  box_inj : ∀ {t t' b}, (s.fut t).box = some b → (s.fut t').box = some b → t = t'

theorem Call.draw_of_undelivered {x : Call} {d : ℕ} (h : x.undelivered = some d) :
    x.draw = some d := by
  cases x <;> simp_all [Call.undelivered, Call.draw]

namespace Boxes

variable {s s' : Sys} {a : Label}

theorem init (n KEY : ℕ) : Boxes (init n KEY) := by
  constructor <;> simp [TaskManager.init, Manager.new, Fut.box]

/-- `waiting` has shrunk and the futures are the same. -/
theorem shrink (hB : Boxes s)
    (hw : ∀ {k b}, s'.waiting.lookup k = some b → s.waiting.lookup k = some b)
    (hc : ∀ {c b}, (s'.call c).undelivered = some b → (s.call c).undelivered = some b)
    (hf : ∀ u, (s'.fut u).box = (s.fut u).box)
    (hb : ∀ {k b}, s'.waiting.lookup k = some b → (s'.fut b).before = true)
    (hK : s.KEY ≤ s'.KEY) : Boxes s' where
  waiting_key h := hB.waiting_key (hw h)
  waiting_lt h := (hB.waiting_lt (hw h)).trans_le hK
  waiting_before := hb
  waiting_delivered h hd := hB.waiting_delivered (hw h) (hc hd)
  box_key h := hB.box_key (hf _ ▸ h)
  box_lt h := (hB.box_lt (hf _ ▸ h)).trans_le hK
  box_gone h hl := hB.box_gone (hf _ ▸ h) (hw hl)
  box_delivered h hd := hB.box_delivered (hf _ ▸ h) (hc hd)
  box_inj h h' := hB.box_inj (hf _ ▸ h) (hf _ ▸ h')

theorem futStep {t : ℕ} (hB : Boxes s) (h : FutStep t s a s') : Boxes s' := by
  have f := h.frame
  rcases h.boxes with ⟨b, ht, hb, ht', hw⟩ | ⟨hw, hbox, hbefore⟩
  · have hw' : ∀ {k b'}, s'.waiting.lookup k = some b' →
        k ≠ keyOf t ∧ s.waiting.lookup k = some b' := by
      intro k b' hl
      rw [hw, lookup_erase_apply] at hl
      split_ifs at hl with hk
      exact ⟨hk, hl⟩
    have hbox : ∀ {u b'}, (s'.fut u).box = some b' →
        (u = t ∧ b' = b) ∨ (u ≠ t ∧ (s.fut u).box = some b') := by
      intro u b' hu
      by_cases hut : u = t
      · left; subst hut; simpa [ht', Fut.box, eq_comm] using hu
      · right; rw [f.others u hut] at hu; exact ⟨hut, hu⟩
    constructor
    · exact fun hl => hB.waiting_key (hw' hl).2
    · rw [f.KEY]; exact fun hl => hB.waiting_lt (hw' hl).2
    · intro k b' hl
      obtain ⟨hk, hl⟩ := hw' hl
      rw [f.others b' fun he => hk (by rw [← hB.waiting_key hl, he])]
      exact hB.waiting_before hl
    · rw [f.call]; exact fun hl => hB.waiting_delivered (hw' hl).2
    · intro u b' hu
      rcases hbox hu with ⟨rfl, rfl⟩ | ⟨_, hu⟩
      · exact hB.waiting_key hb
      · exact hB.box_key hu
    · intro u b' hu
      rw [f.KEY]
      rcases hbox hu with ⟨rfl, rfl⟩ | ⟨_, hu⟩
      · exact hB.waiting_lt hb
      · exact hB.box_lt hu
    · intro u b' k hu hl
      obtain ⟨hk, hl⟩ := hw' hl
      rcases hbox hu with ⟨rfl, rfl⟩ | ⟨_, hu⟩
      · exact hk (by rw [← hB.waiting_key hl, hB.waiting_key hb])
      · exact hB.box_gone hu hl
    · intro u b' c hu
      rw [f.call]
      rcases hbox hu with ⟨rfl, rfl⟩ | ⟨_, hu⟩
      · exact hB.waiting_delivered hb
      · exact hB.box_delivered hu
    · intro u u' b' hu hu'
      rcases hbox hu with ⟨h₁, hb₁⟩ | ⟨_, hu⟩ <;> rcases hbox hu' with ⟨h₂, hb₂⟩ | ⟨_, hu'⟩
      · rw [h₁, h₂]
      · exact absurd (hb₁ ▸ hb) (hB.box_gone hu')
      · exact absurd (hb₂ ▸ hb) (hB.box_gone hu)
      · exact hB.box_inj hu hu'
  · refine hB.shrink (by rw [hw]; exact id) (by rw [f.call]; exact id) (fun u => ?_) ?_ f.KEY.ge
    · by_cases hut : u = t
      · rw [hut, hbox]
      · rw [f.others u hut]
    · intro k b hl
      rw [hw] at hl
      by_cases hbt : b = t
      · subst hbt
        refine (hbefore (hB.waiting_before hl)).resolve_right fun hn => ?_
        rw [hB.waiting_key hl, hl] at hn
        cases hn
      · rw [f.others b hbt]
        exact hB.waiting_before hl

/-- A caller that moves without drawing, inserting or removing. -/
theorem congr {c : ℕ} {x : Call} (hB : Boxes s) (hc : s'.call = update s.call c x)
    (hx : ∀ d, x.undelivered = some d → (s.call c).undelivered = some d) (hf : s'.fut = s.fut)
    (hw : ∀ {k b}, s'.waiting.lookup k = some b → s.waiting.lookup k = some b)
    (hK : s.KEY ≤ s'.KEY) : Boxes s' := by
  refine hB.shrink hw (fun {c' b} hd => ?_) (by simp [hf]) (fun hl => ?_) hK
  · rw [hc] at hd
    by_cases h : c' = c
    · subst h; exact hx _ (by simpa using hd)
    · simpa [h] using hd
  · rw [hf]; exact hB.waiting_before (hw hl)

theorem callStep {c : ℕ} (hB : Boxes s) (hM : Mail s) (h : CallStep c s a s') : Boxes s' := by
  cases h with
  | fetchAdd h =>
      have hne : ∀ {c' d}, (update s.call c (.lockInsert s.KEY) c').undelivered = some d →
          d = s.KEY ∨ (s.call c').undelivered = some d := by
        intro c' d hd
        by_cases hc : c' = c
        · subst hc; left; simpa [Call.undelivered, eq_comm] using hd
        · right; simpa [hc] using hd
      refine ⟨hB.waiting_key, fun hl => Nat.lt_succ_of_lt (hB.waiting_lt hl), hB.waiting_before,
        fun hl hd => ?_, hB.box_key, fun hb => Nat.lt_succ_of_lt (hB.box_lt hb), hB.box_gone,
        fun hb hd => ?_, hB.box_inj⟩
      · rcases hne hd with rfl | hd
        · exact lt_irrefl _ (hB.waiting_lt hl)
        · exact hB.waiting_delivered hl hd
      · rcases hne hd with rfl | hd
        · exact lt_irrefl _ (hB.box_lt hb)
        · exact hB.box_delivered hb hd
  | @insert d h =>
      have hd : (s.call c).undelivered = some d := by simp [h, Call.undelivered]
      have hdraw := Call.draw_of_undelivered hd
      have hw : ∀ {k b}, (s.waiting.insert (keyOf d) d).lookup k = some b →
          (k = keyOf d ∧ b = d) ∨ s.waiting.lookup k = some b := by
        intro k b hl
        rw [lookup_insert_apply] at hl
        split_ifs at hl with hk
        · left; exact ⟨hk, by simpa [eq_comm] using hl⟩
        · right; exact hl
      have hc : ∀ {c' b}, (update s.call c (.send d) c').undelivered = some b →
          b ≠ d ∧ (s.call c').undelivered = some b := by
        intro c' b hb
        by_cases h' : c' = c
        · subst h'; simp [Call.undelivered] at hb
        · rw [Function.update_of_ne h'] at hb
          refine ⟨fun he => h' ?_, hb⟩
          rw [he] at hb
          exact hM.draw_inj (Call.draw_of_undelivered hb) hdraw
      constructor <;> dsimp only
      · intro k b hl
        rcases hw hl with ⟨rfl, rfl⟩ | hl
        · rfl
        · exact hB.waiting_key hl
      · intro k b hl
        rcases hw hl with ⟨rfl, rfl⟩ | hl
        · exact hM.draw_lt hdraw
        · exact hB.waiting_lt hl
      · intro k b hl
        rcases hw hl with ⟨rfl, rfl⟩ | hl
        · rw [hM.draw_unspawned hdraw]; rfl
        · exact hB.waiting_before hl
      · intro k b c' hl hb
        obtain ⟨hbd, hb⟩ := hc hb
        rcases hw hl with ⟨_, rfl⟩ | hl
        · exact hbd rfl
        · exact hB.waiting_delivered hl hb
      · exact hB.box_key
      · exact hB.box_lt
      · intro t b k hb hl
        rcases hw hl with ⟨_, rfl⟩ | hl
        · exact hB.box_delivered hb hd
        · exact hB.box_gone hb hl
      · exact fun hb hd' => hB.box_delivered hb (hc hd').2
      · exact hB.box_inj
  | @removed k b h hb =>
      refine hB.congr rfl (by simp [Call.undelivered]) rfl (fun {j b'} hl => ?_) le_rfl
      dsimp only at hl
      rw [lookup_erase_apply] at hl
      split_ifs at hl
      exact hl
  | callSpawn _ h | lockInsert h | spawnOk h | spawnErr h | callCancel _ h | lockRemove h
  | notWaiting h | readOngoing h | signalled h | notFound h =>
      exact hB.congr rfl (by simp [h, Call.undelivered]) rfl id le_rfl

theorem backgroundStep (hB : Boxes s) (hM : Mail s) (h : BackgroundStep s a s') : Boxes s' := by
  have f := h.frame
  have hbox : ∀ u, (s'.fut u).box = (s.fut u).box ∧
      ((s.fut u).before = true → (s'.fut u).before = true) := by
    intro u
    rcases hM.backgroundStep_fut h u with hu | ⟨hu, hu'⟩
    · rw [hu]; exact ⟨rfl, id⟩
    · simp [hu, hu', Fut.box, Fut.before]
  refine hB.shrink (by rw [f.waiting]; exact id) (by rw [f.call]; exact id) (fun u => (hbox u).1)
    (fun {k b} hl => ?_) f.KEY.ge
  rw [f.waiting] at hl
  exact (hbox b).2 (hB.waiting_before hl)

theorem dropStep (hB : Boxes s) (h : DropStep s a s') : Boxes s' := by
  have f := h.frame
  have hw : ∀ {k b}, s'.waiting.lookup k = some b → s.waiting.lookup k = some b := by
    cases h with
    | drain h => intro k b hl; simp at hl
    | _ => exact id
  refine hB.shrink hw (by rw [f.call]; exact id) (by simp [f.fut]) (fun hl => ?_) f.KEY.ge
  rw [f.fut]
  exact hB.waiting_before (hw hl)

theorem step (hB : Boxes s) (hM : Mail s) (h : Step s a s') : Boxes s' := by
  cases h with
  | other => exact hB.shrink id id (fun _ => rfl) hB.waiting_before (Nat.le_succ _)
  | own h =>
      cases h with
      | call c h => exact hB.callStep hM h
      | fut t h => exact hB.futStep h
      | background h => exact hB.backgroundStep hM h
      | drop h => exact hB.dropStep h

end Boxes

/-! ### The contexts and their tokens -/

/-- The future has created its context. -/
def Fut.started (f : Fut) : Bool := f.entered || f.finished || f.panicked

/-- What a step of a future does to `ongoing`. -/
theorem FutStep.contexts {t : ℕ} {s s' : Sys} {a : Label} (h : FutStep t s a s') :
    (∃ b, s.fut t = .insert b ∧ s'.fut t = .select b ∧
      s'.ongoing = s.ongoing.insertContext ⟨keyOf t, t⟩) ∨
    (∃ b, s.fut t = .removeOngoing b ∧ s'.fut t = .drop (.finished b) ∧
      s'.ongoing = s.ongoing.erase (keyOf t)) ∨
    (s'.ongoing = s.ongoing ∧ ((s.fut t).entered = true →
        (s'.fut t).entered = true ∨ (s'.fut t).panicked = true) ∧
      ((s.fut t).panicked = true → (s'.fut t).panicked = true) ∧
      ((s.fut t).finished = true → (s'.fut t).finished = true) ∧
      ((s'.fut t).entered = true ∨ (s'.fut t).panicked = true →
        (s.fut t).entered = true ∨ (s.fut t).panicked = true)) := by
  cases h with
  | @enter b h => exact .inl ⟨b, h, by simp, rfl⟩
  | @leave b h => exact .inr (.inl ⟨b, h, by simp, rfl⟩)
  | panic h hb =>
      refine .inr (.inr ⟨rfl, by simp [Fut.panicked], by simp [Fut.panicked], ?_, fun _ => .inl ?_⟩)
      · revert h
        cases s.fut t <;> simp [Fut.inCallback, Fut.finished]
      · revert h
        cases s.fut t <;> simp [Fut.inCallback, Fut.entered]
  | @release e h =>
      refine .inr (.inr ⟨rfl, ?_⟩)
      cases e <;> simp [h, Fut.entered, Fut.panicked, Fut.finished]
  | acquire h | lockOngoing h | lockWaiting h | take h | miss h | elseReturn h | select h
  | passBegin h | pollRun h | skipRun h | runPending h | runOk h | runErr h | tokenPending h
  | tokenCancelled h | passEnd h | onErrPending h | onErrReturn h | onCancelPending h
  | onCancelReturn h | lockEnd h =>
      exact .inr (.inr ⟨rfl, by simp [h, Fut.entered], by simp [h, Fut.panicked],
        by simp [h, Fut.finished], by simp [h, Fut.entered, Fut.panicked]⟩)

/-- Where a context comes from. -/
structure Contexts (s : Sys) : Prop where
  key : ∀ {k t}, s.ongoing.lookup k = some t → keyOf t = k
  entered : ∀ {k t}, s.ongoing.lookup k = some t →
    (s.fut t).entered = true ∨ (s.fut t).panicked = true
  token : ∀ {t}, s.cancelled t = true → (s.fut t).started = true

namespace Contexts

variable {s s' : Sys} {a : Label}

theorem init (n KEY : ℕ) : Contexts (init n KEY) := by
  constructor <;> simp [TaskManager.init, Manager.new]

theorem started (hC : Contexts s) {k t : ℕ} (h : s.ongoing.lookup k = some t) :
    (s.fut t).started = true := by
  rcases hC.entered h with h | h <;> simp [Fut.started, h]

theorem spawned (hC : Contexts s) {k t : ℕ} (h : s.ongoing.lookup k = some t) :
    s.fut t ≠ .unspawned := fun hn => by
  have := hC.started h
  rw [hn] at this
  cases this

/-- A step that leaves `ongoing` and cancels at most tokens of `ongoing`. -/
theorem congr (hC : Contexts s) (ho : s'.ongoing = s.ongoing)
    (hf : ∀ u, (s'.fut u).entered = (s.fut u).entered ∧ (s'.fut u).panicked = (s.fut u).panicked ∧
      (s'.fut u).finished = (s.fut u).finished)
    (ht : ∀ {t}, s'.cancelled t = true →
      s.cancelled t = true ∨ ∃ k, s.ongoing.lookup k = some t) : Contexts s' where
  key h := hC.key (ho ▸ h)
  entered {k t} h := by rw [(hf t).1, (hf t).2.1]; exact hC.entered (ho ▸ h)
  token {t} h := by
    rw [Fut.started, (hf t).1, (hf t).2.1, (hf t).2.2, ← Fut.started]
    rcases ht h with h | ⟨k, h⟩
    · exact hC.token h
    · exact hC.started h

theorem futStep {t : ℕ} (hC : Contexts s) (h : FutStep t s a s') : Contexts s' := by
  have f := h.frame
  rcases h.contexts with ⟨b, ht, ht', ho⟩ | ⟨b, ht, ht', ho⟩ | ⟨ho, he, hp, hf, _⟩
  · have hl : ∀ {k u}, s'.ongoing.lookup k = some u →
        (k = keyOf t ∧ u = t) ∨ s.ongoing.lookup k = some u := by
      intro k u h
      rw [ho, lookup_insertContext] at h
      split_ifs at h with hk
      · left; exact ⟨hk.1, by simpa [eq_comm] using h⟩
      · right; exact h
    refine ⟨fun {k u} h => ?_, fun {k u} h => ?_, fun {u} h => ?_⟩
    · rcases hl h with ⟨rfl, rfl⟩ | h
      · rfl
      · exact hC.key h
    · by_cases hu : u = t
      · left; rw [hu, ht']; rfl
      · rw [f.others u hu]
        rcases hl h with ⟨_, rfl⟩ | h
        · exact absurd rfl hu
        · exact hC.entered h
    · by_cases hu : u = t
      · rw [hu, ht']; rfl
      · rw [f.others u hu]
        exact hC.token (f.cancelled ▸ h)
  · have hl : ∀ {k u}, s'.ongoing.lookup k = some u →
        k ≠ keyOf t ∧ s.ongoing.lookup k = some u := by
      intro k u h
      rw [ho, lookup_erase_apply] at h
      split_ifs at h with hk
      exact ⟨hk, h⟩
    refine ⟨fun {k u} h => hC.key (hl h).2, fun {k u} h => ?_, fun {u} h => ?_⟩
    · obtain ⟨hk, h⟩ := hl h
      rw [f.others u fun he => hk (by rw [← hC.key h, he])]
      exact hC.entered h
    · by_cases hu : u = t
      · rw [hu, ht']; rfl
      · rw [f.others u hu]
        exact hC.token (f.cancelled ▸ h)
  · refine ⟨fun {k u} h => hC.key (ho ▸ h), fun {k u} hl => ?_, fun {u} hc => ?_⟩
    · rw [ho] at hl
      by_cases hu : u = t
      · subst hu
        exact (hC.entered hl).elim he fun h => .inr (hp h)
      · rw [f.others u hu]
        exact hC.entered hl
    · rw [f.cancelled] at hc
      by_cases hu : u = t
      · subst hu
        have hs := hC.token hc
        simp only [Fut.started, Bool.or_eq_true] at hs ⊢
        rcases hs with (hs | hs) | hs
        · exact (he hs).elim (fun h => .inl (.inl h)) .inr
        · exact .inl (.inr (hf hs))
        · exact .inr (hp hs)
      · rw [f.others u hu]
        exact hC.token hc

theorem callStep {c : ℕ} (hC : Contexts s) (h : CallStep c s a s') : Contexts s' := by
  have f := h.frame
  refine hC.congr f.ongoing (fun u => by rw [f.fut]; exact ⟨rfl, rfl, rfl⟩) fun {t} ht => ?_
  cases h with
  | @signalled k tok h hk =>
      by_cases he : t = tok
      · right; exact ⟨k, he ▸ hk⟩
      · left; simpa [he] using ht
  | _ => exact .inl ht

theorem backgroundStep (hC : Contexts s) (hM : Mail s) (h : BackgroundStep s a s') :
    Contexts s' := by
  have f := h.frame
  refine hC.congr f.ongoing (fun u => ?_) fun ht => .inl (f.cancelled ▸ ht)
  rcases hM.backgroundStep_fut h u with hu | ⟨hu, hu'⟩
  · rw [hu]; exact ⟨rfl, rfl, rfl⟩
  · simp [hu, hu', Fut.entered, Fut.panicked, Fut.finished]

theorem dropStep (hC : Contexts s) (h : DropStep s a s') : Contexts s' := by
  have f := h.frame
  refine hC.congr f.ongoing (fun u => by rw [f.fut]; exact ⟨rfl, rfl, rfl⟩) fun {t} ht => ?_
  cases h with
  | cancelAll h => simpa [hasToken_iff] using ht
  | _ => exact .inl ht

theorem step (hC : Contexts s) (hM : Mail s) (h : Step s a s') : Contexts s' := by
  cases h with
  | other => exact hC.congr rfl (fun _ => ⟨rfl, rfl, rfl⟩) .inl
  | own h =>
      cases h with
      | call c h => exact hC.callStep h
      | fut t h => exact hC.futStep h
      | background h => exact hC.backgroundStep hM h
      | drop h => exact hC.dropStep h

end Contexts

/-! ### All of it -/

/-- The invariant of every run. -/
structure Inv (s : Sys) : Prop where
  mail : Mail s
  boxes : Boxes s
  contexts : Contexts s
  locks : LockInv s

theorem Inv.init (n KEY : ℕ) : Inv (init n KEY) :=
  ⟨.init n KEY, .init n KEY, .init n KEY, .init n KEY⟩

theorem Inv.step {s s' : Sys} {a : Label} (hI : Inv s) (h : Step s a s') : Inv s' :=
  ⟨hI.mail.step h, hI.boxes.step hI.mail h, hI.contexts.step hI.mail h,
    hI.locks.step (fun _ => hI.mail.chan_unspawned) h⟩

theorem Inv.run {s s' : Sys} {tr : List Label} (hI : Inv s) (h : Run Step s tr s') : Inv s' :=
  h.preserves (fun _ _ _ hI hs => hI.step hs) hI

theorem Inv.of_run {n KEY : ℕ} {s : Sys} {tr : List Label}
    (h : Run Step (TaskManager.init n KEY) tr s) : Inv s := (Inv.init n KEY).run h

theorem KEY_le_of_run {s s' : Sys} {tr : List Label} (h : Run Step s tr s') : s.KEY ≤ s'.KEY :=
  h.le_of_step fun _ _ _ hs => hs.KEY_le

end CorustHackathon.TaskManager
