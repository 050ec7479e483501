import CorustHackathon.TaskManager.Ongoing
import CorustHackathon.TaskManager.World

/-! # No task is lost or run twice

In a process that draws fewer than `2 ^ 64` keys, whose threads have not panicked and whose
callbacks return, a key that `spawn_task` has returned is in exactly one place.  Within one
manager this is read off the life of its task; between managers the keys differ because they
come from one counter. -/

namespace CorustHackathon.TaskManager

open Function (update)
open Spec (Life)

variable {s s' : Sys} {a : Label}

/-! ### Draws in one manager -/

theorem Step.draw {c d : ℕ} (h : Step s a s') (hd : (s'.call c).draw = some d) :
    (s.call c).draw = some d ∨ ∃ c, a = .fetchAdd c d := by
  rcases h.call_cases c with he | h
  · exact .inl (he ▸ hd)
  · cases h with
    | fetchAdd h =>
        right
        have hK : s.KEY = d := by simpa [Call.draw] using hd
        exact ⟨c, by rw [hK]⟩
    | lockInsert hp | insert hp => left; simpa [hp, Call.draw] using hd
    | callSpawn | spawnOk | spawnErr | callCancel | lockRemove | removed | notWaiting
    | readOngoing | signalled | notFound => simp [Call.draw] at hd

/-- The manager has a task with draw `d`. -/
def Known (d : ℕ) (s : Sys) : Prop :=
  (∃ c, (s.call c).draw = some d) ∨ (∃ k, s.waiting.lookup k = some d) ∨
    ∃ t, (s.fut t).box = some d

/-- A manager has the tasks that it has drawn. -/
theorem fetched_of_run {n KEY d : ℕ} {tr : List Label} (h : Run Step (init n KEY) tr s)
    (hd : Known d s) : ∃ c, .fetchAdd c d ∈ tr := by
  revert hd
  refine h.invariant (I := fun tr s => Known d s → ∃ c, .fetchAdd c d ∈ tr) ?_
    fun tr s a s' hr ih hs hd => ?_
  · rintro (⟨c, hc⟩ | ⟨k, hk⟩ | ⟨t, ht⟩)
    · simp [init, Manager.new, Call.draw] at hc
    · simp [init, Manager.new] at hk
    · simp [init, Manager.new, Fut.box] at ht
  · have old : Known d s → ∃ c, .fetchAdd c d ∈ tr ++ [a] := fun hk =>
      (ih hk).imp fun c hm => List.mem_append_left _ hm
    rcases hd with ⟨c, hc⟩ | ⟨k, hk⟩ | ⟨t, ht⟩
    · rcases hs.draw hc with hc | ⟨c', rfl⟩
      · exact old (.inl ⟨c, hc⟩)
      · exact ⟨c', by simp⟩
    · rcases hs.waiting hk with hk | ⟨c, hc⟩
      · exact old (.inr (.inl ⟨k, hk⟩))
      · exact old (.inl ⟨c, Call.draw_of_undelivered hc⟩)
    · rcases (Inv.of_run hr).mail.fut_cases hs with ⟨u, hf⟩ | ⟨_, hf⟩
      · by_cases hut : t = u
        · subst hut
          rcases hf.boxes with ⟨b, _, hl, ht', _⟩ | ⟨_, hbox, _⟩
          · rw [ht', Fut.box, Option.some.injEq] at ht
            exact old (.inr (.inl ⟨_, ht ▸ hl⟩))
          · exact old (.inr (.inr ⟨t, hbox ▸ ht⟩))
        · exact old (.inr (.inr ⟨t, hf.frame.others t hut ▸ ht⟩))
      · rcases hf t with he | he
        · exact old (.inr (.inr ⟨t, he ▸ ht⟩))
        · rw [he.2] at ht; cases ht

/-- A draw that `spawn_task` has returned is in no call any more. -/
theorem returned_of_run {n KEY c c' d : ℕ} {tr : List Label} (h : Run Step (init n KEY) tr s)
    (hd : .spawnOk c d ∈ tr) : (s.call c').draw ≠ some d := by
  revert hd
  refine h.invariant (I := fun tr s => .spawnOk c d ∈ tr → (s.call c').draw ≠ some d) nofun
    fun tr s a s' hr ih hs hd hc => ?_
  rcases hs.draw hc with hc | ⟨x, rfl⟩
  · rcases List.mem_append.mp hd with hd | hd
    · exact ih hd hc
    · rw [List.mem_singleton] at hd
      subst hd
      -- the caller that returns is the one that had the draw
      have hM := (Inv.of_run hr).mail
      have hcc : c' = c := hM.draw_inj hc (by rw [hs.send_of_spawnOk]; rfl)
      subst hcc
      cases hs.callStep rfl with
      | spawnOk => simp [Call.draw] at *
  · cases hs.callStep rfl with
    | fetchAdd =>
        have hd : .spawnOk c s.KEY ∈ tr := by simpa using hd
        exact absurd (drawn_of_spawnOk hr hd) (lt_irrefl _)

/-- A `Task` in the channel or received was sent. -/
theorem spawnOk_of_run {n KEY d : ℕ} {tr : List Label} (h : Run Step (init n KEY) tr s)
    (hd : d ∈ s.chan ∨ s.fut d ≠ .unspawned) : ∃ c, .spawnOk c d ∈ tr := by
  revert hd
  refine h.invariant (I := fun tr s => d ∈ s.chan ∨ s.fut d ≠ .unspawned →
    ∃ c, .spawnOk c d ∈ tr) ?_ fun tr s a s' hr ih hs hd => ?_
  · rintro (hc | hf)
    · cases hc
    · exact absurd rfl hf
  · have old : d ∈ s.chan ∨ s.fut d ≠ .unspawned → ∃ c, .spawnOk c d ∈ tr ++ [a] := fun hd =>
      (ih hd).imp fun c hm => List.mem_append_left _ hm
    rcases hd with hc | hf
    · cases hs with
      | other => exact old (.inl hc)
      | own hs =>
          cases hs with
          | fut t hs => exact old (.inl (hs.frame.chan ▸ hc))
          | drop hs => exact old (.inl (hs.frame.chan ▸ hc))
          | call c hs =>
              cases hs with
              | spawnOk =>
                  rcases List.mem_append.mp hc with hc | hc
                  · exact old (.inl hc)
                  · rw [List.mem_singleton] at hc
                    subst hc
                    exact ⟨c, by simp⟩
              | _ => exact old (.inl hc)
          | background hs =>
              cases hs with
              | buildPanic => cases hc
              | receive hb hch => exact old (.inl (by rw [hch]; exact .tail _ hc))
              | _ => exact old (.inl hc)
    · by_cases hold : s.fut d = .unspawned
      · have ha := hs.receives hold hf
        subst ha
        cases hs.backgroundStep rfl with
        | receive hb hch => exact old (.inl (by rw [hch]; exact .head _))
      · exact old (.inr hold)

/-- The draw whose key `spawn_task` returns in a step. -/
def Label.returns : Label → Option ℕ
  | .spawnOk _ d => some d
  | _ => none

/-- The task whose `run` is called in a step. -/
def Label.starts : Label → Option ℕ
  | .select _ b => some b
  | _ => none

/-! ### Keys are fresh -/

/-- The `insert` into `waiting` overwrites nothing. -/
theorem Step.insert_fresh {c d : ℕ} (hI : Inv s) (hK : s.KEY ≤ usizeSize)
    (h : Step s (.insert c d) s') : s.waiting.lookup (keyOf d) = none := by
  cases h.callStep rfl with
  | insert hc =>
      have hd : (s.call c).undelivered = some d := by simp [hc, Call.undelivered]
      have hlt := (hI.mail.draw_lt (Call.draw_of_undelivered hd)).trans_le hK
      refine Option.eq_none_iff_forall_ne_some.mpr fun b hb => ?_
      have hbd : b = d := by rw [hI.boxes.waiting_eq hK hb, keyOf_of_lt hlt]
      exact hI.boxes.waiting_delivered hb (hbd ▸ hd)

/-- The `insert` into `ongoing` meets no equal context. -/
theorem Step.enter_fresh {t b : ℕ} (hI : Inv s) (hK : s.KEY ≤ usizeSize)
    (h : Step s (.enter t b) s') : s.ongoing.lookup (keyOf t) = none := by
  cases h.futStep rfl with
  | enter hf =>
      have hlt := (hI.mail.fut_lt (t := t) (by rw [hf]; nofun)).trans_le hK
      refine Option.eq_none_iff_forall_ne_some.mpr fun u hu => ?_
      have hut : u = t := by rw [hI.contexts.ongoing_eq hI.mail hK hu, keyOf_of_lt hlt]
      subst hut
      rcases hI.contexts.entered hu with he | he <;> simp [hf, Fut.entered, Fut.panicked] at he

/-! ### One place for each task -/

/-- A task that was removed by a `cancel` or by `Drop` is a discarded one. -/
theorem lives_of_discards {n KEY d : ℕ} {tr : List Label} (h : Run Step (init n KEY) tr s)
    (hK : s.KEY ≤ usizeSize) (hd : ∃ a ∈ tr, a.discards d) : lives tr d = .discarded := by
  obtain ⟨a, ha, hd⟩ := hd
  obtain ⟨tr₁, tr₂, rfl⟩ := List.append_of_mem ha
  obtain ⟨m, m', h₁, hs, h₂⟩ := h.split_at
  have hKm' := (KEY_le_of_run h₂).trans hK
  have hKm := hs.KEY_le.trans hKm'
  have hl := hs.waiting_of_discards (Inv.of_run h₁).boxes hd
  have hA := (refines h₁ hKm).2.1.waiting (Inv.of_run h₁) hl
  have hstep : lives (tr₁ ++ [a]) d = .discarded := by
    rw [lives_snoc]
    cases a with
    | removed c k b =>
        rw [Label.discards] at hd
        subst hd
        simp [Label.ops, Spec.Op.apply]
    | drain w => simp [Label.ops, Spec.Op.apply, hA, Life.discard]
    | _ => exact absurd hd id
  rw [← List.singleton_append, ← List.append_assoc]
  exact Spec.discarded_of_run (refines_from (h₁.snoc hs) h₂ hK) hstep

/-- The places of a task. -/
inductive Place where
  | waiting
  | ongoing
  | discarded
  | finished
deriving DecidableEq, Repr

/-- The `Task`s of draw `d` that are not started: in the channel, or spawned. -/
def unstarted (s : Sys) (d : ℕ) : ℕ :=
  s.chan.count d + if s.fut d ≠ .unspawned ∧ (s.fut d).before = true then 1 else 0

/-- The place of a task by its life. -/
def Place.ofLife : Life → Option Place
  | .waiting => some .waiting
  | .running _ => some .ongoing
  | .discarded => some .discarded
  | .done => some .finished
  | .unborn | .drawn => none

/-- What it means for the task `d` to be in a place, after the history `tr`. -/
def At (tr : List Label) (s : Sys) (d : ℕ) : Place → Prop
  | .waiting => keyOf d ∈ s.waiting ∧ unstarted s d = 1
  | .ongoing => keyOf d ∈ s.ongoing
  | .discarded => ∃ a ∈ tr, a.discards d
  | .finished => (s.fut d).finished = true

/-- Between `let mut ongoing` and the end of its block. -/
def Fut.starting : Fut → Bool
  | lockWaiting | remove | elseReturn | insert _ => true
  | _ => false

/-- A waiting task has exactly one `Task` that is not started. -/
theorem unstarted_of_waiting {n KEY k c d : ℕ} {tr : List Label}
    (h : Run Step (init n KEY) tr s) (hd : .spawnOk c d ∈ tr) (hb : s.background ≠ .panicked)
    (hl : s.waiting.lookup k = some d) : unstarted s d = 1 := by
  have hI := Inv.of_run h
  by_cases hf : s.fut d = .unspawned
  · have hc : d ∈ s.chan := by
      rcases sent_of_run h hd with hc | hn | hp
      · exact hc
      · exact absurd hf hn
      · exact absurd hp hb
    simp [unstarted, hf, List.count_eq_one_of_mem hI.mail.chan_nodup hc]
  · have hc : d ∉ s.chan := fun hm => hf (hI.mail.chan_unspawned hm)
    simp [unstarted, hf, hI.boxes.waiting_before hl, List.count_eq_zero_of_not_mem hc]

/-- **One place for each task** of a manager whose thread has not panicked and whose callbacks
have returned, while no future is in its locked start section. -/
theorem place_of_run {n KEY c d : ℕ} {tr : List Label} (h : Run Step (init n KEY) tr s)
    (hK : s.KEY ≤ usizeSize) (hd : .spawnOk c d ∈ tr) (hb : s.background ≠ .panicked)
    (hp : ∀ t, (s.fut t).panicked = false) (hst : ∀ t, (s.fut t).starting = false) :
    ∃! p, At tr s d p := by
  have hI := Inv.of_run h
  obtain ⟨_, hS, hR⟩ := refines h hK
  have hlt : d < usizeSize := (drawn_of_spawnOk h hd).trans_le hK
  have hkey : keyOf d = d := keyOf_of_lt hlt
  have hF := hS d
  -- each place is that of one life
  have hlife : ∀ p, At tr s d p → Place.ofLife (lives tr d) = some p := by
    intro p hat
    cases p with
    | waiting =>
        obtain ⟨b, hl⟩ := Finmap.mem_iff.mp hat.1
        have hbd : b = d := (hI.boxes.waiting_eq hK hl).trans hkey
        rw [hS.waiting hI (hbd ▸ hl)]
        rfl
    | ongoing =>
        obtain ⟨u, hl⟩ := Finmap.mem_iff.mp hat
        have hud : u = d := (hI.contexts.ongoing_eq hI.mail hK hl).trans hkey
        subst hud
        have he := (hI.contexts.entered hl).resolve_right (by simp [hp u])
        have hrun : (s.fut u).running = true := by
          revert he
          cases s.fut u <;> simp [Fut.running]
        obtain ⟨f, hA⟩ := hS.running hI hrun
        rw [hA]
        rfl
    | discarded => rw [lives_of_discards h hK hat]; rfl
    | finished =>
        have hfin : (s.fut d).finished = true := hat
        rw [hS.done hI (by simp [Fut.isOver, hfin])]
        rfl
  have hex : ∃ p, At tr s d p := by
    have hstage := stage_of_spawned h hK (.inr hd)
    cases hA : lives tr d with
    | unborn | drawn => rw [hA] at hstage; simp [Life.stage] at hstage
    | waiting =>
        rw [hA] at hF
        exact ⟨.waiting, Finmap.mem_iff.mpr ⟨d, hF⟩, unstarted_of_waiting h hd hb hF⟩
    | discarded => exact ⟨.discarded, discards_of_run h hK hA⟩
    | running f =>
        rw [hA] at hF
        have hent : (s.fut d).entered = true := by
          have hr := hF.1
          have hnot := hst d
          revert hr hnot
          cases s.fut d <;> simp [Fut.running, Fut.starting]
        exact ⟨.ongoing, Finmap.mem_iff.mpr ⟨d, hR (.inl hent)⟩⟩
    | done =>
        rw [hA] at hF
        have hover : (s.fut d).isOver = true := hF
        rw [Fut.isOver, hp d, Bool.or_false] at hover
        exact ⟨.finished, hover⟩
  obtain ⟨p, hat⟩ := hex
  refine ⟨p, hat, fun q hq => ?_⟩
  have := hlife q hq
  rw [hlife p hat, Option.some.injEq] at this
  exact this.symm

/-- The early return is for tasks that a `cancel` or `Drop` has removed. -/
theorem discards_of_miss {n KEY t : ℕ} {tr : List Label} (h : Run Step (init n KEY) tr s)
    (hK : s.KEY ≤ usizeSize) (hs : Step s (.miss t) s') : ∃ a ∈ tr, a.discards t := by
  cases hs.futStep rfl with
  | miss hf hl =>
      obtain ⟨c, hc⟩ := spawnOk_of_run (d := t) h (.inr (by rw [hf]; nofun))
      have hstage := stage_of_spawned h hK (.inr hc)
      refine discards_of_run h hK ?_
      have hF := (refines h hK).2.1 t
      cases hA : lives tr t with
      | unborn | drawn => rw [hA] at hstage; simp [Life.stage] at hstage
      | waiting =>
          rw [hA] at hF
          have hF : s.waiting.lookup (keyOf t) = some t := hF
          rw [hl] at hF
          cases hF
      | discarded => rfl
      | running f => rw [hA, Fits, hf] at hF; cases hF.1
      | done => rw [hA, Fits, hf] at hF; cases hF

/-! ### The process -/

namespace World

variable {ι : Type*} [DecidableEq ι] {w w' : World ι}

/-- At most one step of a run is about each draw: `g` says which draw a step is about. -/
structure Once (g : Label → Option ℕ) : Prop where
  other : g .other = none
  fetched : ∀ {n KEY d : ℕ} {tr : List Label} {s s' : Sys} {a : Label},
    Run TaskManager.Step (init n KEY) tr s → TaskManager.Step s a s' → g a = some d →
    ∃ c, .fetchAdd c d ∈ tr
  once : ∀ {n KEY d : ℕ} {tr : List Label} {s s' : Sys} {a : Label},
    Run TaskManager.Step (init n KEY) tr s → (∀ t b, .panic t b ∉ tr) →
    TaskManager.Step s a s' → g a = some d → ∀ a' ∈ tr, g a' ≠ some d

/-- What is about each draw at most once is about each key at most once, in all managers. -/
theorem Once.nodup_keys {g : Label → Option ℕ} (hg : Once g) {n : ι → ℕ}
    {tr : List (ι × Label)} (h : Run Step (new n) tr w) (hK : w.KEY ≤ usizeSize)
    (hp : ∀ i t b, (i, .panic t b) ∉ tr) :
    (tr.filterMap fun x => (g x.2).map keyOf).Nodup := by
  revert hK hp
  refine h.invariant (I := fun tr w => w.KEY ≤ usizeSize → (∀ i t b, (i, .panic t b) ∉ tr) →
    (tr.filterMap fun x => (g x.2).map keyOf).Nodup) (fun _ _ => List.nodup_nil) ?_
  rintro tr w ⟨i, a⟩ w' hr ih hs hK hp
  have hKw := hs.KEY_le.trans hK
  have hp' : ∀ i t b, (i, .panic t b) ∉ tr := fun i t b hm => hp i t b (List.mem_append_left _ hm)
  have hD := Draws.of_run hr
  rw [List.filterMap_append]
  cases hga : g a with
  | none => simpa [hga] using ih hKw hp'
  | some d =>
      have hnew : (List.filterMap (fun x => (g x.2).map keyOf) [(i, a)]) = [keyOf d] := by
        simp [hga]
      rw [hnew]
      refine List.nodup_append.mpr ⟨ih hKw hp', List.nodup_singleton _, fun k hk k' hk' he => ?_⟩
      rw [List.mem_singleton] at hk'
      subst hk'
      obtain ⟨⟨j, a'⟩, hm, hk⟩ := List.mem_filterMap.mp hk
      obtain ⟨d', hga', hkey⟩ := Option.map_eq_some_iff.mp hk
      -- both draws were fetched by their managers
      obtain ⟨c, hc⟩ := hg.fetched (run_new hr i) hs.own hga
      replace hc := (mem_trace (by simp)).mp hc
      obtain ⟨u, v, huv⟩ := List.append_of_mem hm
      subst huv
      obtain ⟨m, m', hu, hs', _⟩ := hr.split_at
      obtain ⟨c', hc'⟩ := hg.fetched (run_new hu j) hs'.own hga'
      replace hc' : (j, .fetchAdd c' d') ∈ u ++ (j, a') :: v :=
        List.mem_append_left _ ((mem_trace (by simp)).mp hc')
      have hdd : d' = d := keyOf_inj ((hD.lt hc').trans_le hKw) ((hD.lt hc).trans_le hKw)
        (hkey.trans he)
      subst hdd
      have hij := hD.owner hc hc'
      subst hij
      have hne : a' ≠ .other := fun ho => by rw [ho, hg.other] at hga'; cases hga'
      refine hg.once (run_new hr i) (fun t b hm => ?_) hs.own hga a' ((mem_trace hne).mpr hm) hga'
      exact hp' i t b ((mem_trace (by simp)).mp hm)

/-- A key is returned once. -/
theorem once_returns : Once Label.returns where
  other := rfl
  fetched := by
    intro n KEY d tr s s' a hr hs hga
    cases a with
    | spawnOk c d' =>
        cases hga
        exact fetched_of_run hr (.inl ⟨c, by rw [hs.send_of_spawnOk]; rfl⟩)
    | _ => cases hga
  once := by
    intro n KEY d tr s s' a hr _ hs hga a' hm hga'
    cases a with
    | spawnOk c d₁ =>
        cases a' with
        | spawnOk c' d₂ =>
            cases hga
            cases hga'
            have hdraw : (s.call c).draw = some d := by rw [hs.send_of_spawnOk]; rfl
            exact returned_of_run hr hm hdraw
        | _ => cases hga'
    | _ => cases hga

/-- `run` is called once. -/
theorem once_starts : Once Label.starts where
  other := rfl
  fetched := by
    intro n KEY d tr s s' a hr hs hga
    cases a with
    | select t b =>
        cases hga
        cases hs.futStep rfl with
        | select hf => exact fetched_of_run hr (.inr (.inr ⟨t, by rw [hf]; rfl⟩))
    | _ => cases hga
  once := by
    intro n KEY d tr s s' a hr hp hs hga a' hm hga'
    cases a with
    | select t b =>
        cases a' with
        | select t' b' =>
            cases hga
            cases hga'
            cases hs.futStep rfl with
            | select hf =>
                -- before the `select!` there was no callback on the task
                have hlog := Logged.of_run (b := d) hr (fun t => hp t d) t (by rw [hf]; rfl)
                rw [hf] at hlog
                have hrun : Callback.run ∈ callbacks tr d :=
                  List.mem_flatMap.mpr ⟨_, hm, by simp [Label.callbacks]⟩
                rw [show callbacks tr d = [] from hlog] at hrun
                cases hrun
        | _ => cases hga'
    | _ => cases hga

/-- What holds of the tasks of a process, with managers for `n i` permits, that has come to `w`
by a run with the trace `tr`. -/
structure Conserved (tr : List (ι × Label)) (w : World ι) : Prop where
  /-- The keys that are returned are distinct. -/
  distinct : (tr.filterMap fun x => x.2.returns.map keyOf).Nodup
  /-- The `insert` into `waiting` overwrites nothing. -/
  insert : ∀ {i c d w'}, Step w (i, .insert c d) w' → keyOf d ∉ (w.mgr i).waiting
  /-- The `insert` into `ongoing` meets no equal context. -/
  enter : ∀ {i t b w'}, Step w (i, .enter t b) w' → keyOf t ∉ (w.mgr i).ongoing
  /-- While no future is in its locked start section, each key is in exactly one place. -/
  place : ∀ {i c d}, (i, .spawnOk c d) ∈ tr → (∀ t, ((w.mgr i).fut t).starting = false) →
    ∃! p, At (trace i tr) (w.view i) d p
  /-- `run` is started at most once for each key. -/
  once : (tr.filterMap fun x => x.2.starts.map keyOf).Nodup
  /-- The early return is for keys that a `cancel` or `Drop` has removed. -/
  missed : ∀ {i t w'}, Step w (i, .miss t) w' → ∃ a, (i, a) ∈ tr ∧ a.discards t

/-- **No task is lost or run twice**: in every run of any number of managers that share `KEY`, with
fewer than `2 ^ 64` draws, no panic of a thread and none of a callback. -/
theorem no_task_lost {n : ι → ℕ} {tr : List (ι × Label)} (h : Run Step (new n) tr w)
    (hK : w.KEY < usizeSize) (hb : ∀ i, (i, .buildPanic) ∉ tr)
    (hp : ∀ i t b, (i, .panic t b) ∉ tr) : Conserved tr w := by
  have hv := run_new h
  constructor
  case distinct => exact once_returns.nodup_keys h hK.le hp
  case once => exact once_starts.nodup_keys h hK.le hp
  case insert =>
    exact fun hs => Finmap.lookup_eq_none.mp (hs.own.insert_fresh (Inv.of_run (hv _)) hK.le)
  case enter =>
    exact fun hs => Finmap.lookup_eq_none.mp (hs.own.enter_fresh (Inv.of_run (hv _)) hK.le)
  case missed =>
    intro i t w' hs
    obtain ⟨a, ha, hd⟩ := discards_of_miss (hv i) hK.le hs.own
    exact ⟨a, (mem_trace (by rintro rfl; exact hd)).mp ha, hd⟩
  case place =>
    intro i c d hd hst
    refine place_of_run (hv i) hK.le ((mem_trace (by simp)).mpr hd) (fun hpan => ?_)
      (fun t => ?_) hst
    · exact hb i ((mem_trace (by simp)).mp (buildPanic_of_run (hv i) hpan))
    · rw [← Bool.not_eq_true, panicked_iff (hv i)]
      exact fun ⟨b, hm⟩ => hp i t b ((mem_trace (by simp)).mp hm)

/-- Two managers with a task each, one that runs and one that waits. -/
theorem no_task_lost_two : ∃ tr, ∃ w : World Bool, Conserved tr w ∧
    (tr.filterMap fun x => x.2.returns.map keyOf) = [0, 1] ∧
    keyOf 0 ∈ (w.mgr true).ongoing ∧ keyOf 1 ∈ (w.mgr false).waiting := by
  have h₁ := run_own (w := new fun _ : Bool => 1) (i := true)
    ((built_run 1 0).trans (launch_run (.built 1 0 0) Nat.one_pos)) (by decide)
  have h₂ := h₁.trans (run_own (i := false)
    ((Run.single (.background (.built rfl))).trans (spawn_run (c := 0) rfl rfl rfl rfl))
    (by decide))
  refine ⟨_, _, no_task_lost h₂ (by decide) ?_ ?_, rfl, by decide, by decide⟩
  · simp [launchTrace, spawnTrace, startTrace]
  · simp [launchTrace, spawnTrace, startTrace]

end World

end CorustHackathon.TaskManager
