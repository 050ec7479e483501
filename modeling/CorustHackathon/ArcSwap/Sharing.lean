import CorustHackathon.ArcSwap.App

/-! # The lock of `App1` guards a count

A reader of `App1` reads the pointer and then increments the count behind it.  In between it holds
nothing: the allocation is alive because the slot holds it, and the slot keeps it because the
assignment of `update_config` needs the lock.  `Inv` ties the lock to the places of the threads and
the counts to the pointers that they hold; `config_shared` is what follows for every run. -/

namespace CorustHackathon.ArcSwap.App1

open Function (update)

variable {s s' : Sys} {a : Label} {tr : List Label}

/-! ### Places -/

/-- In the section with the read guard. -/
def Handler.reads : Handler → Bool
  | deref _ | increment _ _ | unread _ _ => true
  | _ => false

/-- The pointer that the thread has counted. -/
def Handler.holds : Handler → Option ℕ
  | unread _ p | print _ p | drop p => some p
  | _ => none

/-- The pointer that the next step looks behind. -/
def Handler.touches : Handler → Option ℕ
  | increment _ p | print _ p | drop p => some p
  | _ => none

/-- In the section with the write guard. -/
def Updater.writes : Updater → Bool
  | dropOld _ | assign _ | unwrite => true
  | _ => false

/-- The pointer that the thread owns. -/
def Updater.holds : Updater → Option ℕ
  | write p | dropOld p | assign p => some p
  | _ => none

namespace Sys

def Writes (s : Sys) : Party → Prop
  | .updater u => (s.updater u).writes
  | .handler _ => False

def Reads (s : Sys) : Party → Prop
  | .handler h => (s.handler h).reads
  | .updater _ => False

/-- Who holds the pointer `p`; the owner `none` is the slot behind the lock. -/
def Holds (s : Sys) : Option Party → ℕ → Prop
  | none, p => s.config = some p
  | some (.handler h), p => (s.handler h).holds = some p
  | some (.updater u), p => (s.updater u).holds = some p

/-- The next step of `q` looks behind the pointer `p`. -/
def Touches (s : Sys) : Party → ℕ → Prop
  | .handler h, p => (s.handler h).touches = some p
  | .updater u, p => (∃ r, s.updater u = .dropOld r) ∧ s.config = some p

/-- The next step of `q` takes the pointer out of the slot. -/
def Opens (s : Sys) : Party → Prop
  | .handler h => ∃ data, s.handler h = .deref data
  | .updater u => ∃ p, s.updater u = .dropOld p

/-- `q` has something to do. -/
def Busy (s : Sys) : Party → Prop
  | .handler h => s.handler h ≠ .unspawned ∧ s.handler h ≠ .done
  | .updater u => s.updater u ≠ .idle

end Sys

/-- A step of `q`. -/
def StepOf : Party → Sys → Label → Sys → Prop
  | .handler h => HandlerStep h
  | .updater u => UpdaterStep u

/-! ### What a step leaves alone -/

structure HandlerFrame (h : ℕ) (s s' : Sys) : Prop where
  others : ∀ k, k ≠ h → s'.handler k = s.handler k
  updater : s'.updater = s.updater
  config : s'.config = s.config

theorem HandlerStep.frame {h : ℕ} (hs : HandlerStep h s a s') : HandlerFrame h s s' := by
  cases hs <;> exact ⟨fun k hk => by simp [hk], rfl, rfl⟩

structure UpdaterFrame (u : ℕ) (s s' : Sys) : Prop where
  others : ∀ k, k ≠ u → s'.updater k = s.updater k
  handler : s'.handler = s.handler

theorem UpdaterStep.frame {u : ℕ} (hs : UpdaterStep u s a s') : UpdaterFrame u s s' := by
  cases hs <;> exact ⟨fun k hk => by simp [hk], rfl⟩

namespace HandlerFrame

variable {h : ℕ}

theorem writes (f : HandlerFrame h s s') (q : Party) : s'.Writes q ↔ s.Writes q := by
  cases q with
  | handler k => exact Iff.rfl
  | updater u => unfold Sys.Writes; rw [f.updater]

theorem reads (f : HandlerFrame h s s') {q : Party} (hq : q ≠ .handler h) :
    s'.Reads q ↔ s.Reads q := by
  cases q with
  | updater u => exact Iff.rfl
  | handler k =>
      have hk : k ≠ h := fun he => hq (he ▸ rfl)
      show (s'.handler k).reads = true ↔ (s.handler k).reads = true
      rw [f.others k hk]

theorem holds (f : HandlerFrame h s s') (q : Option Party) (p : ℕ) :
    s'.Holds q p ↔ (q = some (.handler h) ∧ (s'.handler h).holds = some p) ∨
      (q ≠ some (.handler h) ∧ s.Holds q p) := by
  unfold Sys.Holds
  match q with
  | none => simp [f.config]
  | some (.updater u) => simp [f.updater]
  | some (.handler k) =>
      by_cases hk : k = h
      · subst hk; simp
      · simp [hk, f.others k hk]

end HandlerFrame

namespace UpdaterFrame

variable {u : ℕ}

theorem reads (f : UpdaterFrame u s s') (q : Party) : s'.Reads q ↔ s.Reads q := by
  cases q with
  | updater k => exact Iff.rfl
  | handler h => unfold Sys.Reads; rw [f.handler]

theorem writes (f : UpdaterFrame u s s') {q : Party} (hq : q ≠ .updater u) :
    s'.Writes q ↔ s.Writes q := by
  cases q with
  | handler h => exact Iff.rfl
  | updater k =>
      have hk : k ≠ u := fun he => hq (he ▸ rfl)
      show (s'.updater k).writes = true ↔ (s.updater k).writes = true
      rw [f.others k hk]

theorem holds (f : UpdaterFrame u s s') (q : Option Party) (p : ℕ) :
    s'.Holds q p ↔ (q = none ∧ s'.config = some p) ∨
      (q = some (.updater u) ∧ (s'.updater u).holds = some p) ∨
      (q ≠ none ∧ q ≠ some (.updater u) ∧ s.Holds q p) := by
  unfold Sys.Holds
  match q with
  | none => simp
  | some (.handler h) => simp [f.handler]
  | some (.updater k) =>
      by_cases hk : k = u
      · subst hk; simp
      · simp [hk, f.others k hk]

end UpdaterFrame

/-! ### The invariant -/

/-- What holds in every reachable state. -/
structure Inv (s : Sys) : Prop where
  lock : s.lock.Owned s.Writes s.Reads
  arcs : Counted s.arcs s.Holds
  /-- The slot is empty in the middle of an assignment only. -/
  slot : s.config = none ↔ ∃ u p, s.updater u = .assign p
  /-- A reader that has read the pointer increments the count of what is in the slot. -/
  reader : ∀ {h data p}, s.handler h = .increment data p → s.config = some p

namespace Inv

theorem init : Inv init where
  lock := .free_init (fun q => by cases q <;> simp [Sys.Writes, App1.init, Updater.writes])
    fun q => by cases q <;> simp [Sys.Reads, App1.init, Handler.reads]
  arcs := by
    have h : Counted (Arcs.empty : Arcs String) fun (_ : Option Party) _ => False :=
      .empty fun _ _ => id
    refine h.alloc (o := none) fun q r => ?_
    unfold Sys.Holds
    match q with
    | none => simp [App1.init, Arcs.empty, eq_comm]
    | some (.handler h) => simp [App1.init, Handler.holds]
    | some (.updater u) => simp [App1.init, Updater.holds]
  slot := by simp [App1.init]
  reader h := by simp [App1.init] at h

/-! ### Steps of a handler -/

theorem handler_lock {h : ℕ} (hI : Inv s) (hs : HandlerStep h s a s') :
    s'.lock.Owned s'.Writes s'.Reads := by
  have f := hs.frame
  have hW : ∀ q, q ≠ .handler h → (s'.Writes q ↔ s.Writes q) := fun q _ => f.writes q
  have hR : ∀ q, q ≠ .handler h → (s'.Reads q ↔ s.Reads q) := fun q hq => f.reads hq
  cases hs with
  | read hf hl => exact hI.lock.read hl hW hR id (by simp [Sys.Reads, Handler.reads])
  | unread hf =>
      refine hI.lock.unread ?_ hW hR id ?_
      · show (s.handler h).reads = true
        rw [hf]
        rfl
      · simp [Sys.Reads, Handler.reads]
  | handle hf | deref hf | increment hf | println hf | printFails hf | dropContent hf =>
      exact hI.lock.same hW hR Iff.rfl (by simp [Sys.Reads, hf, Handler.reads])

/-- The count that a reader increments is that of what is in the slot. -/
theorem handler_arcs {h : ℕ} (hI : Inv s) (hs : HandlerStep h s a s') :
    Counted s'.arcs s'.Holds := by
  have f := hs.frame
  have same : (s'.handler h).holds = (s.handler h).holds → Counted s.arcs s'.Holds := fun he => by
    refine hI.arcs.congr fun q r => ?_
    rw [f.holds, he]
    by_cases hq : q = some (.handler h)
    · subst hq; simp [Sys.Holds]
    · simp [hq]
  cases hs with
  | increment hf hp =>
      refine hI.arcs.clone (o := some (.handler h)) hp ?_ fun q r => ?_
      · simp [Sys.Holds, hf, Handler.holds]
      · rw [f.holds]
        by_cases hq : q = some (.handler h)
        · subst hq; simp [Sys.Holds, hf, Handler.holds, eq_comm]
        · simp [hq]
  | dropContent hf hp =>
      refine hI.arcs.drop (o := some (.handler h)) ?_ fun q r => ?_
      · simp [Sys.Holds, hf, Handler.holds]
      · rw [f.holds]
        by_cases hq : q = some (.handler h)
        · subst hq; simp [Sys.Holds, hf, Handler.holds, eq_comm]
        · simp [hq]
  | handle hf | read hf | deref hf | unread hf | println hf | printFails hf =>
      exact same (by simp [hf, Handler.holds])

theorem handler {h : ℕ} (hI : Inv s) (hs : HandlerStep h s a s') : Inv s' where
  lock := hI.handler_lock hs
  arcs := hI.handler_arcs hs
  slot := by rw [hs.frame.config, hs.frame.updater]; exact hI.slot
  reader {k data p} hk := by
    have f := hs.frame
    rw [f.config]
    by_cases hkh : k = h
    · subst hkh
      cases hs with
      | deref hf hc =>
          have : _ = p := (by simpa using hk : _ ∧ _ = p).2
          exact this ▸ hc
      | handle | read | increment | unread | println | printFails | dropContent => simp at hk
    · rw [f.others k hkh] at hk
      exact hI.reader hk

/-! ### Steps of an updater -/

theorem updater_lock {u : ℕ} (hI : Inv s) (hs : UpdaterStep u s a s') :
    s'.lock.Owned s'.Writes s'.Reads := by
  have f := hs.frame
  have hW : ∀ q, q ≠ .updater u → (s'.Writes q ↔ s.Writes q) := fun q hq => f.writes hq
  have hR : ∀ q, q ≠ .updater u → (s'.Reads q ↔ s.Reads q) := fun q _ => f.reads q
  cases hs with
  | write hf hl => exact hI.lock.write hl hW hR (by simp [Sys.Writes, Updater.writes]) id
  | unwrite hf =>
      refine hI.lock.unwrite ?_ hW hR ?_ id
      · show (s.updater u).writes = true
        rw [hf]
        rfl
      · simp [Sys.Writes, Updater.writes]
  | update hf | asRef hf | asRefPanics hf | dropOld hf | assign hf | returns hf =>
      exact hI.lock.same hW hR (by simp [Sys.Writes, hf, Updater.writes]) Iff.rfl

theorem updater_arcs {u : ℕ} (hI : Inv s) (hs : UpdaterStep u s a s') :
    Counted s'.arcs s'.Holds := by
  have f := hs.frame
  have same : s'.config = s.config → (s'.updater u).holds = (s.updater u).holds →
      Counted s.arcs s'.Holds := fun hc he => by
    refine hI.arcs.congr fun q r => ?_
    rw [f.holds, hc, he]
    match q with
    | none => simp [Sys.Holds]
    | some (.handler h) => simp [Sys.Holds]
    | some (.updater k) =>
        by_cases hk : k = u
        · subst hk; simp [Sys.Holds]
        · simp [hk]
  cases hs with
  | asRef hf =>
      refine hI.arcs.alloc (o := some (.updater u)) fun q r => ?_
      rw [f.holds]
      match q with
      | none => simp [Sys.Holds]
      | some (.handler h) => simp [Sys.Holds]
      | some (.updater k) =>
          by_cases hk : k = u
          · subst hk; simp [Sys.Holds, hf, Updater.holds, eq_comm]
          · simp [hk]
  | @dropOld p r₀ hf hc hp =>
      refine hI.arcs.drop (o := none) hc fun q r => ?_
      rw [f.holds]
      match q with
      | none => simp [Sys.Holds, hc, eq_comm]
      | some (.handler h) => simp [Sys.Holds]
      | some (.updater k) =>
          by_cases hk : k = u
          · subst hk; simp [Sys.Holds, hf, Updater.holds]
          · simp [hk]
  | @assign p hf =>
      have hnone : s.config = none := hI.slot.mpr ⟨u, p, hf⟩
      refine hI.arcs.give (o := some (.updater u)) (p := p) ?_ (?_ : ¬ s.Holds none p) fun q r => ?_
      · simp [Sys.Holds, hf, Updater.holds]
      · simp [Sys.Holds, hnone]
      · rw [f.holds]
        match q with
        | none => simp [Sys.Holds, hnone, eq_comm]
        | some (.handler h) => simp [Sys.Holds]
        | some (.updater k) =>
            by_cases hk : k = u
            · subst hk; simp [Sys.Holds, hf, Updater.holds]; tauto
            · simp [hk]
  | update hf | asRefPanics hf | write hf | unwrite hf | returns hf =>
      exact same rfl (by simp [hf, Updater.holds])

/-- Only one thread is in an assignment. -/
theorem updater_slot {u : ℕ} (hI : Inv s) (hs : UpdaterStep u s a s') :
    s'.config = none ↔ ∃ u p, s'.updater u = .assign p := by
  have f := hs.frame
  have same : (∀ p, s.updater u ≠ .assign p) → (∀ p, s'.updater u ≠ .assign p) →
      ((∃ u p, s.updater u = .assign p) ↔ ∃ u p, s'.updater u = .assign p) := fun h₁ h₂ => by
    refine exists_congr fun k => exists_congr fun p => ?_
    by_cases hk : k = u
    · subst hk; simp [h₁, h₂]
    · rw [f.others k hk]
  cases hs with
  | @dropOld p q hf hc hp => simp only [true_iff]; exact ⟨u, p, by simp⟩
  | @assign p hf =>
      simp only [reduceCtorEq, false_iff]
      rintro ⟨k, r, hk⟩
      by_cases hku : k = u
      · subst hku; simp at hk
      · rw [Function.update_of_ne hku] at hk
        have h₁ : s.Writes (.updater k) := by simp [Sys.Writes, hk, Updater.writes]
        have h₂ : s.Writes (.updater u) := by simp [Sys.Writes, hf, Updater.writes]
        have := hI.lock.write_unique h₁ h₂
        cases this
        exact hku rfl
  | update hf | asRef hf | asRefPanics hf | write hf | unwrite hf | returns hf =>
      exact hI.slot.trans (same (by simp [hf]) (by simp))

theorem updater {u : ℕ} (hI : Inv s) (hs : UpdaterStep u s a s') : Inv s' where
  lock := hI.updater_lock hs
  arcs := hI.updater_arcs hs
  slot := hI.updater_slot hs
  reader {h data p} hk := by
    rw [hs.frame.handler] at hk
    have hc := hI.reader hk
    -- a reader is in its section, so that nobody writes
    have hr : s.Reads (.handler h) := by simp [Sys.Reads, hk, Handler.reads]
    cases hs with
    | dropOld hf | assign hf =>
        have hw : s.Writes (.updater u) := by simp [Sys.Writes, hf, Updater.writes]
        exact absurd hr (hI.lock.write_not_read hw)
    | update | asRef | asRefPanics | write | unwrite | returns => exact hc

theorem step (hI : Inv s) (hs : Step s a s') : Inv s' := by
  cases hs with
  | handler h hs => exact hI.handler hs
  | updater u hs => exact hI.updater hs

theorem run (hI : Inv s) (h : Run Step s tr s') : Inv s' :=
  h.preserves (fun _ _ _ hI hs => hI.step hs) hI

theorem of_run (h : Run Step App1.init tr s) : Inv s := init.run h

end Inv

/-! ### What is shared -/

/-- What the counts and the lock are for. -/
structure Shared (s : Sys) : Prop where
  /-- No thread looks behind a pointer that was freed. -/
  alive : ∀ {q p}, s.Touches q p → ∃ content, s.arcs.get p = some content
  /-- No thread takes a pointer out of an empty slot. -/
  full : ∀ {q}, s.Opens q → s.config ≠ none
  /-- Each count is the number of the holders. -/
  counted : ∀ p, Counts (s.arcs.strong p) (s.Holds · p)
  /-- A configuration is freed when nobody holds it. -/
  freed : ∀ p, s.arcs.get p = none ↔ ∀ q, ¬ s.Holds q p
  /-- A thread that is busy can step, or it waits for one that holds the lock and can. -/
  moves : ∀ {q}, s.Busy q → ∃ q' a s', (q' = q ∨ s.lock.HeldBy q') ∧ StepOf q' s a s'

namespace Inv

theorem alive {q : Party} {p : ℕ} (hI : Inv s) (h : s.Touches q p) :
    ∃ content, s.arcs.get p = some content := by
  cases q with
  | updater u => exact hI.arcs.get_of_holds (o := none) h.2
  | handler k =>
      have h : (s.handler k).touches = some p := h
      cases hf : s.handler k with
      | increment data r =>
          have hr : r = p := by simpa [hf, Handler.touches] using h
          exact hI.arcs.get_of_holds (o := none) (hr ▸ hI.reader hf)
      | print | drop =>
          refine hI.arcs.get_of_holds (o := some (.handler k)) ?_
          simpa [Sys.Holds, hf, Handler.touches, Handler.holds] using h
      | unspawned | read | deref | unread | done => simp [hf, Handler.touches] at h

/-- The slot is empty for the thread only that empties it. -/
theorem full {q : Party} (hI : Inv s) (h : s.Opens q) : s.config ≠ none := fun hn => by
  obtain ⟨u, p, hu⟩ := hI.slot.mp hn
  have hw : s.Writes (.updater u) := by simp [Sys.Writes, hu, Updater.writes]
  cases q with
  | handler k =>
      obtain ⟨data, hk⟩ := h
      exact hI.lock.write_not_read hw (q := .handler k) (by simp [Sys.Reads, hk, Handler.reads])
  | updater k =>
      obtain ⟨r, hk⟩ := h
      have hw' : s.Writes (.updater k) := by simp [Sys.Writes, hk, Updater.writes]
      have he := hI.lock.write_unique hw hw'
      cases he
      rw [hu] at hk
      cases hk

/-- A thread in a section can step. -/
theorem section_enabled {q : Party} (hI : Inv s) (h : s.Writes q ∨ s.Reads q) :
    ∃ a s', StepOf q s a s' := by
  have touched : ∀ {p}, s.Touches q p → s.arcs.get p ≠ none := fun ht hn => by
    obtain ⟨content, hc⟩ := hI.alive ht
    rw [hn] at hc
    cases hc
  cases q with
  | handler k =>
      have h : (s.handler k).reads = true := h.resolve_left id
      cases hf : s.handler k with
      | deref data =>
          have hfull := hI.full (q := .handler k) ⟨data, hf⟩
          obtain ⟨p, hp⟩ := Option.ne_none_iff_exists'.mp hfull
          exact ⟨_, _, .deref hf hp⟩
      | increment data p =>
          have ht : s.Touches (.handler k) p := by simp [Sys.Touches, hf, Handler.touches]
          exact ⟨_, _, .increment hf (touched ht)⟩
      | unread data p => exact ⟨_, _, .unread hf⟩
      | unspawned | read | print | drop | done => simp [hf, Handler.reads] at h
  | updater k =>
      have h : (s.updater k).writes = true := h.resolve_right id
      cases hf : s.updater k with
      | dropOld p =>
          have hfull := hI.full (q := .updater k) ⟨p, hf⟩
          obtain ⟨r, hr⟩ := Option.ne_none_iff_exists'.mp hfull
          exact ⟨_, _, .dropOld hf hr (touched ⟨⟨p, hf⟩, hr⟩)⟩
      | assign p => exact ⟨_, _, .assign hf⟩
      | unwrite => exact ⟨_, _, .unwrite hf⟩
      | idle | asRef | write | returning => simp [hf, Updater.writes] at h

/-- A lock is free, or somebody holds it who can step. -/
theorem holder_enabled (hI : Inv s) (hl : s.lock ≠ .free) :
    ∃ q a s', s.lock.HeldBy q ∧ StepOf q s a s' := by
  by_contra hno
  refine hl (hI.lock.eq_free (fun q hq => ?_) fun q hq => ?_)
  · obtain ⟨a, s', hs⟩ := hI.section_enabled (.inl hq)
    exact hno ⟨q, a, s', .inl ((hI.lock.write_iff q).mpr hq), hs⟩
  · obtain ⟨a, s', hs⟩ := hI.section_enabled (.inr hq)
    exact hno ⟨q, a, s', .inr ((hI.lock.read_iff q).mpr hq), hs⟩

theorem moves {q : Party} (hI : Inv s) (hb : s.Busy q) :
    ∃ q' a s', (q' = q ∨ s.lock.HeldBy q') ∧ StepOf q' s a s' := by
  have own : (∃ a s', StepOf q s a s') →
      ∃ q' a s', (q' = q ∨ s.lock.HeldBy q') ∧ StepOf q' s a s' := fun ⟨a, s', hs⟩ =>
    ⟨q, a, s', .inl rfl, hs⟩
  -- with the lock free, or after whoever holds it
  have lock : (s.lock = .free → ∃ a s', StepOf q s a s') →
      ∃ q' a s', (q' = q ∨ s.lock.HeldBy q') ∧ StepOf q' s a s' := fun hfree => by
    by_cases hl : s.lock = .free
    · exact own (hfree hl)
    · obtain ⟨q', a, s', hq, hs⟩ := hI.holder_enabled hl
      exact ⟨q', a, s', .inr hq, hs⟩
  cases q with
  | handler k =>
      cases hf : s.handler k with
      | unspawned => exact absurd hf hb.1
      | done => exact absurd hf hb.2
      | read data => exact lock fun hl => ⟨_, _, .read hf hl⟩
      | deref | increment | unread =>
          exact own (hI.section_enabled (.inr (by simp [Sys.Reads, hf, Handler.reads])))
      | print data p =>
          obtain ⟨content, hc⟩ := hI.alive (q := .handler k) (p := p)
            (by simp [Sys.Touches, hf, Handler.touches])
          exact own ⟨_, _, .println hf hc⟩
      | drop p =>
          obtain ⟨content, hc⟩ := hI.alive (q := .handler k) (p := p)
            (by simp [Sys.Touches, hf, Handler.touches])
          exact own ⟨_, _, .dropContent hf (by rw [hc]; exact Option.some_ne_none content)⟩
  | updater k =>
      cases hf : s.updater k with
      | idle => exact absurd hf hb
      | asRef => exact own ⟨.asRef k "", _, .asRef hf⟩
      | write p => exact lock fun hl => ⟨_, _, .write hf hl⟩
      | dropOld | assign | unwrite =>
          exact own (hI.section_enabled (.inl (by simp [Sys.Writes, hf, Updater.writes])))
      | returning => exact own ⟨_, _, .returns hf⟩

end Inv

/-- **The configuration is shared safely**: in every order of the steps of any number of handlers
and updates, no thread follows a pointer to a freed string or reads the slot in the middle of an
assignment, each string is freed when the last holder has dropped it and not before, and nobody
waits for a lock whose holder is stuck. -/
theorem config_shared (h : Run Step init tr s) : Shared s := by
  have hI := Inv.of_run h
  refine ⟨hI.alive, hI.full, hI.arcs.counts, fun p => ?_, hI.moves⟩
  rw [← not_exists, ← hI.arcs.get_iff, Option.eq_none_iff_forall_ne_some, not_exists]

/-- A handler that has read the pointer, next to an update that waits for the lock. -/
theorem config_shared_waiting : ∃ s : Sys, s.handler 0 = .increment 5 0 ∧
    s.updater 0 = .write 1 ∧ Shared s := by
  have h : Run Step init [.handle 0 5, .read 0, .deref 0, .update 0, .asRef 0 "new"] _ :=
    (.nil : Run Step init [] init)
    |>.snoc (.handler 0 (.handle rfl)) |>.snoc (.handler 0 (.read rfl rfl))
    |>.snoc (.handler 0 (.deref rfl rfl)) |>.snoc (.updater 0 (.update rfl))
    |>.snoc (.updater 0 (.asRef rfl))
  exact ⟨_, rfl, rfl, config_shared h⟩

end CorustHackathon.ArcSwap.App1
