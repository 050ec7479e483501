import CorustHackathon.TaskManager.Refinement

/-! # What a history says of the state

Facts that tie the trace of a run to the state it leads to: which callbacks have been made on a
task that nobody has taken (none), how far `Drop` has come, and, while `KEY` is drawn at most
`2 ^ 64` times, how far the life of a task has come and who has ended it. -/

namespace CorustHackathon.TaskManager

open Function (update)
open Spec (Life)

variable {s s' : Sys} {a : Label}

/-! ### Callbacks and boxed tasks -/

/-- Callbacks are made by a future in its `select!`, on the task it has taken. -/
theorem FutStep.callbacks {t b : ℕ} (h : FutStep t s a s') :
    a.callbacks b = [] ∨ ((s.fut t).inSelect = true ∧ (s.fut t).box = some b) := by
  cases h with
  | @select b' h | @runPending b' _ h | @runOk b' _ h | @runErr b' _ h | @tokenCancelled b' _ _ h =>
      by_cases hb : b' = b
      · right; simp [h, hb, Fut.inSelect, Fut.box]
      · left; simp [Label.callbacks, hb]
  | @panic b' h hb' =>
      by_cases hb : b' = b
      · right
        refine ⟨?_, hb ▸ hb'⟩
        revert h
        cases s.fut t <;> simp [Fut.inCallback, Fut.inSelect]
      · left; simp [Label.callbacks, hb]
  | _ => exact .inl rfl

/-- A future keeps the task that it has taken. -/
theorem Step.box {t b : ℕ} (hM : Mail s) (h : Step s a s') (hb : (s.fut t).box = some b) :
    (s'.fut t).box = some b := by
  rcases hM.fut_cases h with ⟨u, hf⟩ | ⟨_, hf⟩
  · by_cases hut : t = u
    · subst hut
      rcases hf.boxes with ⟨b', ht, _⟩ | ⟨_, hbox, _⟩
      · rw [ht] at hb; cases hb
      · rwa [hbox]
    · rwa [hf.frame.others t hut]
  · rcases hf t with he | he
    · rwa [he]
    · rw [he.1] at hb; cases hb

/-- There are no callbacks on a task that no future has taken. -/
theorem silent_of_run {n KEY b : ℕ} {tr : List Label} (h : Run Step (init n KEY) tr s)
    (hb : ∀ t, (s.fut t).box ≠ some b) : callbacks tr b = [] := by
  revert hb
  refine h.invariant (I := fun tr s => (∀ t, (s.fut t).box ≠ some b) → callbacks tr b = [])
    (fun _ => rfl) fun tr s a s' hr ih hs hb => ?_
  have hM := (Inv.of_run hr).mail
  have hb₁ : ∀ t, (s.fut t).box ≠ some b := fun t ht => hb t (hs.box hM ht)
  have ha : a.callbacks b = [] := by
    rcases hM.fut_cases hs with ⟨t, hf⟩ | ⟨ha, _⟩
    · exact hf.callbacks.resolve_right fun hx => hb₁ t hx.2
    · exact Label.callbacks_of_actor ha b
  rw [callbacks_append, ih hb₁, callbacks_singleton, ha]
  rfl

/-! ### `Drop` -/

/-- How far `Drop` has come. -/
def Dropping.rank : Dropping → ℕ
  | alive => 0
  | lockWaiting => 1
  | drain => 2
  | lockOngoing => 3
  | cancelAll => 4
  | takeTx => 5
  | join => 6
  | returned | panicked => 7

theorem DropStep.rank_lt (h : DropStep s a s') : s.dropping.rank < s'.dropping.rank := by
  cases h <;> simp [*, Dropping.rank]

theorem Step.rank_le (h : Step s a s') : s.dropping.rank ≤ s'.dropping.rank := by
  cases h with
  | other => exact le_rfl
  | own h =>
      cases h with
      | call c h => rw [h.frame.dropping]
      | fut t h => rw [h.frame.dropping]
      | background h => rw [h.frame.dropping]
      | drop h => exact h.rank_lt.le

theorem rank_le_of_run {tr : List Label} (h : Run Step s tr s') :
    s.dropping.rank ≤ s'.dropping.rank :=
  h.le_of_step (f := fun s => s.dropping.rank) fun _ _ _ hs => hs.rank_le

theorem Step.rank_of_drain {w : TaskMap} (h : Step s (.drain w) s') : 3 ≤ s'.dropping.rank := by
  cases h.dropStep rfl with
  | drain hd => simp [Dropping.rank]

/-- Where `Drop` is after the drain. -/
theorem rank_of_drain {tr : List Label} {w : TaskMap} (h : Run Step s tr s')
    (hd : .drain w ∈ tr) : 3 ≤ s'.dropping.rank := by
  obtain ⟨tr₁, tr₂, rfl⟩ := List.append_of_mem hd
  obtain ⟨m, m', _, hs, h₂⟩ := h.split_at
  exact hs.rank_of_drain.trans (rank_le_of_run h₂)

/-- Nobody is in a call while the manager is dropped. -/
theorem Step.alive_of_call (h : Step s a s')
    (hs : ∀ c, s.call c ≠ .idle → s.dropping = .alive) (c : ℕ) (hc : s'.call c ≠ .idle) :
    s'.dropping = .alive := by
  cases h with
  | other => exact hs c hc
  | own h =>
      cases h with
      | fut t h =>
          rw [h.frame.call] at hc
          rw [h.frame.dropping]
          exact hs c hc
      | background h =>
          rw [h.frame.call] at hc
          rw [h.frame.dropping]
          exact hs c hc
      | drop h =>
          rw [h.frame.call] at hc
          have ha := hs c hc
          cases h with
          | dropBegin _ hidle => exact absurd (hidle c) hc
          | dropLockWaiting hd | drain hd | dropLockOngoing hd | cancelAll hd | takeTx hd
          | joinOk hd | joinErr hd => rw [ha] at hd; cases hd
      | call c' h =>
          rw [h.frame.dropping]
          by_cases hcc : c = c'
          · subst hcc
            cases h with
            | callSpawn ha | callCancel ha => exact ha
            | fetchAdd h | lockInsert h | insert h | spawnOk h | spawnErr h | lockRemove h
            | removed h | notWaiting h | readOngoing h | signalled h | notFound h =>
                exact hs c (by rw [h]; nofun)
          · rw [h.frame.others c hcc] at hc
            exact hs c hc

theorem alive_of_run {n KEY c : ℕ} {tr : List Label} (h : Run Step (init n KEY) tr s)
    (hc : s.call c ≠ .idle) : s.dropping = .alive :=
  h.preserves (I := fun s => ∀ c, s.call c ≠ .idle → s.dropping = .alive)
    (fun _ _ _ hi hs => hs.alive_of_call hi) (fun _ hc => absurd rfl hc) c hc

/-! ### The channel -/

/-- A step sends a `Task`, and it is in the channel. -/
theorem Step.sends {c d : ℕ} (h : Step s (.spawnOk c d) s') : d ∈ s'.chan := by
  cases h.callStep rfl with
  | spawnOk hc hr => simp

/-- A `Task` leaves the channel when its future is spawned, or with the receiver. -/
theorem Step.chan {d : ℕ} (h : Step s a s') (hd : d ∈ s.chan) :
    d ∈ s'.chan ∨ s'.fut d = .acquire ∨ s'.background = .panicked := by
  cases h with
  | other => exact .inl hd
  | own h =>
      cases h with
      | fut t h => exact .inl (h.frame.chan ▸ hd)
      | drop h => exact .inl (h.frame.chan ▸ hd)
      | call c h =>
          left
          cases h with
          | spawnOk => exact List.mem_append_left _ hd
          | _ => exact hd
      | background h =>
          cases h with
          | buildPanic => exact .inr (.inr rfl)
          | @receive t rest hb hc =>
              rw [hc] at hd
              rcases List.mem_cons.mp hd with rfl | hd
              · exact .inr (.inl (by simp))
              · exact .inl hd
          | built | joinNext | closed | joinAll | exit => exact .inl hd

theorem Step.spawned {t : ℕ} (hM : Mail s) (h : Step s a s') (ht : s.fut t ≠ .unspawned) :
    s'.fut t ≠ .unspawned := by
  rcases hM.fut_cases h with ⟨u, hf⟩ | ⟨_, hf⟩
  · by_cases hut : t = u
    · subst hut; exact hf.frame.spawned'
    · rwa [hf.frame.others t hut]
  · rcases hf t with he | he
    · rwa [he]
    · rw [he.2]; nofun

theorem Step.background_panicked (h : Step s a s') (hb : s.background = .panicked) :
    s'.background = .panicked := by
  cases h with
  | other => exact hb
  | own h =>
      cases h with
      | call c h => rw [h.frame.background, hb]
      | fut t h => rw [h.frame.background, hb]
      | drop h => rw [h.frame.background, hb]
      | background h =>
          cases h with
          | built h | buildPanic h | receive h | joinNext h | closed h | joinAll h | exit h =>
              simp [hb] at h

theorem buildPanic_of_run {n KEY : ℕ} {tr : List Label} (h : Run Step (init n KEY) tr s)
    (hb : s.background = .panicked) : .buildPanic ∈ tr := by
  revert hb
  refine h.invariant (I := fun tr s => s.background = .panicked → .buildPanic ∈ tr) nofun
    fun tr s a s' hr ih hs hb => ?_
  have old : s'.background = s.background → .buildPanic ∈ tr ++ [a] := fun he =>
    List.mem_append_left _ (ih (he ▸ hb))
  cases hs with
  | other => exact old rfl
  | own hs =>
      cases hs with
      | call c hs => exact old hs.frame.background
      | fut t hs => exact old hs.frame.background
      | drop hs => exact old hs.frame.background
      | background hs =>
          cases hs with
          | buildPanic => simp
          | joinAll => exact old rfl
          | receive => dsimp only at hb; split_ifs at hb
          | built | joinNext | closed | exit => cases hb

/-- A `Task` that was sent is in the channel or was received, unless the thread panicked. -/
theorem sent_of_run {n KEY c d : ℕ} {tr : List Label} (h : Run Step (init n KEY) tr s)
    (hd : .spawnOk c d ∈ tr) :
    d ∈ s.chan ∨ s.fut d ≠ .unspawned ∨ s.background = .panicked := by
  revert hd
  refine h.invariant (I := fun tr s => .spawnOk c d ∈ tr →
    d ∈ s.chan ∨ s.fut d ≠ .unspawned ∨ s.background = .panicked) nofun
    fun tr s a s' hr ih hs hd => ?_
  rcases List.mem_append.mp hd with hd | hd
  · rcases ih hd with hc | hf | hp
    · exact (hs.chan hc).imp_right fun h => h.imp_left fun h => by rw [h]; nofun
    · exact .inr (.inl (hs.spawned (Inv.of_run hr).mail hf))
    · exact .inr (.inr (hs.background_panicked hp))
  · rw [List.mem_singleton] at hd
    subst hd
    exact .inl hs.sends

/-- A future is spawned by the receipt of its `Task`. -/
theorem Step.receives {t : ℕ} (h : Step s a s') (ht : s.fut t = .unspawned)
    (ht' : s'.fut t ≠ .unspawned) : a = .receive t := by
  cases h with
  | other => exact absurd ht ht'
  | own h =>
      cases h with
      | call c h => rw [h.frame.fut] at ht'; exact absurd ht ht'
      | drop h => rw [h.frame.fut] at ht'; exact absurd ht ht'
      | fut u h =>
          by_cases hut : t = u
          · subst hut; exact absurd ht h.frame.spawned
          · rw [h.frame.others t hut] at ht'; exact absurd ht ht'
      | background h =>
          cases h with
          | @receive u rest hb hc =>
              by_cases hut : t = u
              · rw [hut]
              · simp only [Function.update_of_ne hut] at ht'; exact absurd ht ht'
          | _ => exact absurd ht ht'

theorem received_of_run {n KEY t : ℕ} {tr : List Label} (h : Run Step (init n KEY) tr s)
    (ht : s.fut t ≠ .unspawned) : .receive t ∈ tr := by
  revert ht
  refine h.invariant (I := fun tr s => s.fut t ≠ .unspawned → .receive t ∈ tr)
    (fun ht => absurd rfl ht) fun tr s a s' hr ih hs ht => ?_
  by_cases hold : s.fut t = .unspawned
  · simp [hs.receives hold ht]
  · exact List.mem_append_left _ (ih hold)

/-! ### Lives -/

/-- The lives at two points of a run are those of a run of the abstract manager. -/
theorem refines_from {n KEY : ℕ} {tr₁ tr₂ : List Label} {s₁ s₂ : Sys}
    (h₁ : Run Step (init n KEY) tr₁ s₁) (h₂ : Run Step s₁ tr₂ s₂) (hK : s₂.KEY ≤ usizeSize) :
    Run Spec.Step (lives tr₁) (tr₂.flatMap Label.ops) (lives (tr₁ ++ tr₂)) := by
  have h := (refines (h₁.trans h₂) hK).1
  rw [List.flatMap_append] at h
  obtain ⟨A, hA₁, hA₂⟩ := h.split
  have hA : A = lives tr₁ := Spec.eq_of_run hA₁
  exact hA ▸ hA₂

theorem Step.send {c d : ℕ} (h : Step s a s') (hc : s'.call c = .send d) :
    s.call c = .send d ∨ a = .insert c d := by
  rcases h.call_cases c with he | h
  · exact .inl (he ▸ hc)
  · cases h with
    | @insert e h =>
        right
        have : e = d := by simpa using hc
        rw [this]
    | callSpawn | fetchAdd | lockInsert | spawnOk | spawnErr | callCancel | lockRemove
    | removed | notWaiting | readOngoing | signalled | notFound => simp at hc

theorem Step.send_of_spawnOk {c d : ℕ} (h : Step s (.spawnOk c d) s') : s.call c = .send d := by
  cases h.callStep rfl with
  | spawnOk hc hr => exact hc

theorem drawn_of_spawnOk {n KEY c d : ℕ} {tr : List Label} (h : Run Step (init n KEY) tr s)
    (hd : .spawnOk c d ∈ tr) : d < s.KEY := by
  obtain ⟨tr₁, tr₂, rfl⟩ := List.append_of_mem hd
  obtain ⟨m, m', h₁, hs, h₂⟩ := h.split_at
  have hc := hs.send_of_spawnOk
  have hlt : d < m.KEY := (Inv.of_run h₁).mail.draw_lt (c := c) (by rw [hc]; rfl)
  exact hlt.trans_le (hs.KEY_le.trans (KEY_le_of_run h₂))

/-- Once a `spawn_task` has inserted its task, its life is at least `waiting`. -/
theorem stage_of_spawned {n KEY c d : ℕ} {tr : List Label} (h : Run Step (init n KEY) tr s)
    (hK : s.KEY ≤ usizeSize) (hd : s.call c = .send d ∨ .spawnOk c d ∈ tr) :
    2 ≤ (lives tr d).stage := by
  revert hK hd
  refine h.invariant (I := fun tr s => s.KEY ≤ usizeSize →
    s.call c = .send d ∨ .spawnOk c d ∈ tr → 2 ≤ (lives tr d).stage) ?_ ?_
  · rintro - (hc | hm)
    · cases hc
    · cases hm
  · intro tr s a s' hr ih hs hK hd
    have hmono := Spec.stage_le_of_run (refines_from hr (.single hs) hK) d
    have ih := fun hd => (ih (hs.KEY_le.trans hK) hd).trans hmono
    have hsend : s'.call c = .send d → 2 ≤ (lives (tr ++ [a]) d).stage := fun hc => by
      rcases hs.send hc with hc | rfl
      · exact ih (.inl hc)
      · simp [lives_snoc, Label.ops, Spec.Op.apply, Life.stage]
    rcases hd with hc | hm
    · exact hsend hc
    · rcases List.mem_append.mp hm with hm | hm
      · exact ih (.inr hm)
      · rw [List.mem_singleton] at hm
        subst hm
        exact ih (.inl hs.send_of_spawnOk)

/-- A step that discards in the abstract manager discards in the code. -/
theorem Step.discards_of_lives {tr : List Label} {d : ℕ} (h : Step s a s') (hS : Sim (lives tr) s)
    (hd : lives (tr ++ [a]) d = .discarded) : lives tr d = .discarded ∨ a.discards d := by
  rw [lives_snoc] at hd
  cases a with
  | removed c k b =>
      by_cases hb : d = b
      · right; exact hb.symm
      · left; simpa [Label.ops, Spec.Op.apply, hb] using hd
  | drain w =>
      simp only [Label.ops, List.foldl_cons, List.foldl_nil, Spec.Op.apply] at hd
      cases hA : lives tr d with
      | waiting =>
          right
          have hF := hS d
          rw [hA] at hF
          cases h.dropStep rfl with
          | drain h => exact hF
      | discarded => exact .inl rfl
      | unborn | drawn | running | done => rw [hA] at hd; cases hd
  | cancelAll =>
      simp only [Label.ops, List.foldl_cons, List.foldl_nil, Spec.Op.apply] at hd
      cases hA : lives tr d with
      | discarded => exact .inl rfl
      | unborn | drawn | waiting | running | done => rw [hA] at hd; cases hd
  | signalled c k t =>
      left
      by_cases ht : d = t
      · subst ht
        simp only [Label.ops, List.foldl_cons, List.foldl_nil, Spec.Op.apply,
          Function.update_self] at hd
        cases hA : lives tr d with
        | discarded => rfl
        | unborn | drawn | waiting | running | done => rw [hA] at hd; cases hd
      · simpa [Label.ops, Spec.Op.apply, ht] using hd
  | fetchAdd c e | insert c e | take t e | leave t e | panic t e =>
      left
      by_cases he : d = e
      · subst he; simp [Label.ops, Spec.Op.apply] at hd
      · simpa [Label.ops, Spec.Op.apply, he] using hd
  | _ => exact .inl hd

/-- A discarded task was removed from `waiting` by a `cancel` or by `Drop`. -/
theorem discards_of_run {n KEY d : ℕ} {tr : List Label} (h : Run Step (init n KEY) tr s)
    (hK : s.KEY ≤ usizeSize) (hd : lives tr d = .discarded) : ∃ a ∈ tr, a.discards d := by
  revert hK hd
  refine h.invariant (I := fun tr s => s.KEY ≤ usizeSize → lives tr d = .discarded →
    ∃ a ∈ tr, a.discards d) (fun _ hd => by cases hd) fun tr s a s' hr ih hs hK hd => ?_
  have hK₁ := hs.KEY_le.trans hK
  rcases hs.discards_of_lives (refines hr hK₁).2.1 hd with hd | hd
  · obtain ⟨x, hx, hd⟩ := ih hK₁ hd
    exact ⟨x, List.mem_append_left _ hx, hd⟩
  · exact ⟨a, by simp, hd⟩

end CorustHackathon.TaskManager
