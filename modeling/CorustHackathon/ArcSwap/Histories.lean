import CorustHackathon.ArcSwap.Sharing

/-! # The two apps look the same

A handler of `App1` has its configuration from the moment in which it reads the pointer, and an
update takes effect when its assignment drops the old one: the other steps of the two sections
cannot be seen.  These two points (`Label.points`) turn a run of `App1` into one of `App2`.  The
other way round, a step of `App2` is taken by `App1` in a whole section without an interruption
(`Label.steps`), and then the first simulation says where it has led.  So what can be seen of the
one can be seen of the other (`same_histories`): the `ArcSwap` replaces the lock and changes nothing
else. -/

namespace CorustHackathon.ArcSwap

open Function (update)

namespace App1

variable {s s' : Sys} {a : Label} {tr : List Label} {A B : Arcs String}

/-! ### What a place is for -/

/-- The pointer that stands for what will be printed. -/
def Handler.content : Handler → Option ℕ
  | increment _ p | unread _ p | print _ p => some p
  | _ => none

/-- The pointer that stands for what will be stored. -/
def Updater.new : Updater → Option ℕ
  | write p | dropOld p => some p
  | _ => none

/-- The string behind a pointer that is alive. -/
def Sys.str (A : Arcs String) (p : ℕ) : String := (A.get p).getD ""

def Handler.abs (A : Arcs String) : Handler → App2.Handler
  | unspawned => .unspawned
  | read data | deref data => .load data
  | increment data p | unread data p | print data p => .print data (Sys.str A p)
  | drop _ | done => .done

def Updater.abs (A : Arcs String) : Updater → App2.Updater
  | idle => .idle
  | asRef => .asRef
  | write p | dropOld p => .store (Sys.str A p)
  | assign _ | unwrite | returning => .returning

theorem Handler.abs_congr {f : Handler} (h : ∀ p, f.content = some p → B.get p = A.get p) :
    f.abs B = f.abs A := by
  cases f with
  | increment data p | unread data p | print data p =>
      simp only [Handler.abs, Sys.str, h p rfl]
  | _ => rfl

theorem Updater.abs_congr {f : Updater} (h : ∀ p, f.new = some p → B.get p = A.get p) :
    f.abs B = f.abs A := by
  cases f with
  | write p | dropOld p => simp only [Updater.abs, Sys.str, h p rfl]
  | _ => rfl

/-! ### Strings do not change -/

theorem Inv.content_held (hI : Inv s) {h p : ℕ} (hc : (s.handler h).content = some p) :
    ∃ q, s.Holds q p := by
  cases hf : s.handler h with
  | increment data r =>
      have hr : r = p := by simpa [hf, Handler.content] using hc
      exact ⟨none, hr ▸ hI.reader hf⟩
  | unread data r | print data r =>
      have hr : r = p := by simpa [hf, Handler.content] using hc
      exact ⟨some (.handler h), by simp [Sys.Holds, hf, hr, Handler.holds]⟩
  | unspawned | read | deref | drop | done => simp [hf, Handler.content] at hc

theorem Updater.holds_of_new {f : Updater} {p : ℕ} (h : f.new = some p) : f.holds = some p := by
  cases f <;> simp_all [Updater.new, Updater.holds]

/-- What is held before and after a step is the same string. -/
theorem Inv.get_kept {q q' : Option Party} {p : ℕ} (hI : Inv s) (hs : Step s a s')
    (hq : s.Holds q p) (hq' : s'.Holds q' p) : s'.arcs.get p = s.arcs.get p := by
  have hC' := (hI.step hs).arcs
  cases hs with
  | handler h hs =>
      cases hs with
      | increment => exact s.arcs.get_clone _ p
      | dropContent => exact hC'.get_drop hq'
      | handle | read | deref | unread | println | printFails => rfl
  | updater u hs =>
      cases hs with
      | asRef =>
          have hne : p ≠ s.arcs.next := (hI.arcs.lt_next hq).ne
          exact s.arcs.get_alloc p _ hne
      | dropOld => exact hC'.get_drop hq'
      | update | asRefPanics | write | assign | unwrite | returns => rfl

/-- A handler that does not move keeps what it will print. -/
theorem Inv.handler_kept {h : ℕ} (hI : Inv s) (hs : Step s a s')
    (he : s'.handler h = s.handler h) : (s'.handler h).abs s'.arcs = (s.handler h).abs s.arcs := by
  rw [he]
  refine Handler.abs_congr fun p hp => ?_
  obtain ⟨q, hq⟩ := hI.content_held hp
  obtain ⟨q', hq'⟩ := (hI.step hs).content_held (he ▸ hp)
  exact hI.get_kept hs hq hq'

/-- An update that does not move keeps what it will store. -/
theorem Inv.updater_kept {u : ℕ} (hI : Inv s) (hs : Step s a s')
    (he : s'.updater u = s.updater u) : (s'.updater u).abs s'.arcs = (s.updater u).abs s.arcs := by
  rw [he]
  refine Updater.abs_congr fun p hp => ?_
  have hq : s.Holds (some (.updater u)) p := Updater.holds_of_new hp
  have hq' : s'.Holds (some (.updater u)) p := Updater.holds_of_new (he ▸ hp)
  exact hI.get_kept hs hq hq'

/-- The string that the next reader will find. -/
def Sys.Current (s : Sys) (p : ℕ) : Prop := s.config = some p ∨ ∃ u, s.updater u = .assign p

theorem Sys.Current.held {p : ℕ} (h : s.Current p) : ∃ q, s.Holds q p := by
  rcases h with h | ⟨u, hu⟩
  · exact ⟨none, h⟩
  · exact ⟨some (.updater u), by simp [Sys.Holds, hu, Updater.holds]⟩

/-- The steps of `App2` that a step of `App1` is. -/
def Label.points : Label → List App2.Label
  | .handle h data => [.handle h data]
  | .deref h => [.load h]
  | .println h data content => [.println h data content]
  | .printFails h => [.printFails h]
  | .update u => [.update u]
  | .asRef u new => [.asRef u new]
  | .asRefPanics u => [.asRefPanics u]
  | .dropOld u => [.store u]
  | .returns u => [.returns u]
  | .read _ | .increment _ | .unread _ | .dropContent _ | .write _ | .assign _ | .unwrite _ => []

end App1

/-! ### From the lock to the swap -/

/-- `t` is what `s` looks like. -/
structure Sim (s : App1.Sys) (t : App2.Sys) : Prop where
  inv : App1.Inv s
  handler : ∀ h, t.handler h = (s.handler h).abs s.arcs
  updater : ∀ u, t.updater u = (s.updater u).abs s.arcs
  config : ∀ {p}, s.Current p → s.arcs.get p = some t.config

namespace Sim

variable {s s' : App1.Sys} {t t' : App2.Sys} {a : App1.Label}

theorem init : Sim App1.init App2.init where
  inv := .init
  handler _ := rfl
  updater _ := rfl
  config {p} hp := by
    rcases hp with hp | ⟨u, hu⟩
    · have : 0 = p := by simpa [App1.init] using hp
      subst this
      rfl
    · simp [App1.init] at hu

/-- After a step of handler `h` to the place `f`. -/
theorem of_handler {h : ℕ} {f : App1.Handler} {x : App2.Handler} (hS : Sim s t)
    (hs : App1.HandlerStep h s a s') (hf : s'.handler h = f) (hx : f.abs s'.arcs = x) :
    Sim s' { t with handler := update t.handler h x } := by
  have fr := hs.frame
  have hstep := App1.Step.handler h hs
  refine ⟨hS.inv.handler hs, fun k => ?_, fun u => ?_, fun {p} hp => ?_⟩
  · by_cases hk : k = h
    · subst hk
      rw [hf, hx]
      exact Function.update_self _ _ _
    · rw [hS.inv.handler_kept hstep (fr.others k hk), ← hS.handler k]
      exact Function.update_of_ne hk _ _
  · rw [hS.inv.updater_kept hstep (by rw [fr.updater]), ← hS.updater u]
  · have hp₀ : s.Current p := by
      unfold App1.Sys.Current at hp ⊢
      rwa [fr.config, fr.updater] at hp
    obtain ⟨q, hq⟩ := hp₀.held
    obtain ⟨q', hq'⟩ := hp.held
    rw [hS.inv.get_kept hstep hq hq', hS.config hp₀]

/-- After a step of updater `u` to the place `f`. -/
theorem of_updater {u : ℕ} {f : App1.Updater} {x : App2.Updater} {c : String} (hS : Sim s t)
    (hs : App1.UpdaterStep u s a s') (hf : s'.updater u = f) (hx : f.abs s'.arcs = x)
    (hc : ∀ {p}, s'.Current p → (∃ q, s.Holds q p) ∧ s.arcs.get p = some c) :
    Sim s' { t with updater := update t.updater u x, config := c } := by
  have fr := hs.frame
  have hstep := App1.Step.updater u hs
  refine ⟨hS.inv.updater hs, fun h => ?_, fun k => ?_, fun {p} hp => ?_⟩
  · rw [hS.inv.handler_kept hstep (by rw [fr.handler]), ← hS.handler h]
  · by_cases hk : k = u
    · subst hk
      rw [hf, hx]
      exact Function.update_self _ _ _
    · rw [hS.inv.updater_kept hstep (fr.others k hk), ← hS.updater k]
      exact Function.update_of_ne hk _ _
  · obtain ⟨q', hq'⟩ := hp.held
    obtain ⟨⟨q, hq⟩, hget⟩ := hc hp
    rw [hS.inv.get_kept hstep hq hq', hget]

/-- A step that cannot be seen leaves `App2` where it is. -/
theorem stutter_handler {h : ℕ} {f f' : App1.Handler} (hS : Sim s t)
    (hs : App1.HandlerStep h s a s') (hf : s.handler h = f) (hf' : s'.handler h = f')
    (he : f'.abs s'.arcs = f.abs s.arcs) : Sim s' t := by
  have hS' := hS.of_handler hs hf' he
  rwa [← hf, ← hS.handler h, Function.update_eq_self] at hS'

theorem handlerStep {h : ℕ} (hS : Sim s t) (hs : App1.HandlerStep h s a s') :
    ∃ t', Run App2.Step t a.points t' ∧ Sim s' t' := by
  have hh := hS.handler h
  cases hs with
  | handle hf =>
      rw [hf] at hh
      exact ⟨_, .single (.handler h (.handle hh)),
        hS.of_handler (.handle hf) (Function.update_self ..) rfl⟩
  | @deref data p hf hc =>
      rw [hf] at hh
      have hstr : App1.Sys.str s.arcs p = t.config := by
        rw [App1.Sys.str, hS.config (.inl hc)]
        rfl
      refine ⟨_, .single (.handler h (.load hh)),
        hS.of_handler (.deref hf hc) (Function.update_self ..) ?_⟩
      rw [← hstr]
      rfl
  | @println data p content hf hc =>
      have hstr : App1.Sys.str s.arcs p = content := by
        rw [App1.Sys.str, hc]
        rfl
      rw [hf] at hh
      have hh : t.handler h = .print data content := by
        rw [hh, ← hstr]
        rfl
      exact ⟨_, .single (.handler h (.println hh)),
        hS.of_handler (.println hf hc) (Function.update_self ..) rfl⟩
  | printFails hf =>
      rw [hf] at hh
      exact ⟨_, .single (.handler h (.printFails hh)),
        hS.of_handler (.printFails hf) (Function.update_self ..) rfl⟩
  | read hf hl => exact ⟨t, .nil, hS.stutter_handler (.read hf hl) hf (Function.update_self ..) rfl⟩
  | @increment data p hf hp =>
      exact ⟨t, .nil, hS.stutter_handler (.increment hf hp) hf (Function.update_self ..)
        (App1.Handler.abs_congr fun r _ => s.arcs.get_clone p r)⟩
  | unread hf => exact ⟨t, .nil, hS.stutter_handler (.unread hf) hf (Function.update_self ..) rfl⟩
  | dropContent hf hp =>
      exact ⟨t, .nil, hS.stutter_handler (.dropContent hf hp) hf (Function.update_self ..) rfl⟩

/-- What is current stays so, but for the two halves of an assignment. -/
theorem current_kept {u : ℕ} (hS : Sim s t) (hs : App1.UpdaterStep u s a s')
    (hc : s'.config = s.config) (hu : ∀ p, s'.updater u ≠ .assign p) {p : ℕ}
    (hp : s'.Current p) : (∃ q, s.Holds q p) ∧ s.arcs.get p = some t.config := by
  have hp₀ : s.Current p := by
    rcases hp with hp | ⟨k, hk⟩
    · exact .inl (hc ▸ hp)
    · have hku : k ≠ u := fun he => hu p (he ▸ hk)
      exact .inr ⟨k, hs.frame.others k hku ▸ hk⟩
  exact ⟨hp₀.held, hS.config hp₀⟩

theorem stutter_updater {u : ℕ} {f f' : App1.Updater} (hS : Sim s t)
    (hs : App1.UpdaterStep u s a s') (hf : s.updater u = f) (hf' : s'.updater u = f')
    (he : f'.abs s'.arcs = f.abs s.arcs)
    (hc : ∀ {p}, s'.Current p → (∃ q, s.Holds q p) ∧ s.arcs.get p = some t.config) :
    Sim s' t := by
  have hS' := hS.of_updater hs hf' he hc
  rwa [← hf, ← hS.updater u, Function.update_eq_self] at hS'

/-- An update takes effect where its assignment drops the old string. -/
theorem updaterStep {u : ℕ} (hS : Sim s t) (hs : App1.UpdaterStep u s a s') :
    ∃ t', Run App2.Step t a.points t' ∧ Sim s' t' := by
  have hu := hS.updater u
  have keep := hS.current_kept hs
  cases hs with
  | update hf =>
      rw [hf] at hu
      exact ⟨_, .single (.updater u (.update hu)),
        hS.of_updater (.update hf) (Function.update_self ..) rfl (keep rfl (by simp))⟩
  | @asRef new hf =>
      rw [hf] at hu
      have hstr : App1.Sys.str (s.arcs.alloc new) s.arcs.next = new := by
        rw [App1.Sys.str, s.arcs.get_alloc_self]
        rfl
      refine ⟨_, .single (.updater u (.asRef hu)),
        hS.of_updater (.asRef hf) (Function.update_self ..) ?_ (keep rfl (by simp))⟩
      show App2.Updater.store (App1.Sys.str (s.arcs.alloc new) s.arcs.next) = .store new
      rw [hstr]
  | asRefPanics hf =>
      rw [hf] at hu
      exact ⟨_, .single (.updater u (.asRefPanics hu)),
        hS.of_updater (.asRefPanics hf) (Function.update_self ..) rfl (keep rfl (by simp))⟩
  | @dropOld p q hf hc hq =>
      rw [hf] at hu
      refine ⟨_, .single (.updater u (.store hu)),
        hS.of_updater (.dropOld hf hc hq) (Function.update_self ..) rfl fun {r} hr => ?_⟩
      have hheld : s.Holds (some (.updater u)) p := by
        simp [App1.Sys.Holds, hf, App1.Updater.holds]
      obtain ⟨content, hget⟩ := hS.inv.arcs.get_of_holds hheld
      obtain ⟨k, hk⟩ := hr.resolve_left (by simp)
      by_cases hku : k = u
      · have hpr : p = r := by simpa [hku] using hk
        subst hpr
        refine ⟨⟨_, hheld⟩, ?_⟩
        rw [App1.Sys.str, hget]
        rfl
      · -- nobody else is in an assignment
        exfalso
        simp only [Function.update_of_ne hku] at hk
        have h₁ : s.Writes (.updater k) := by simp [App1.Sys.Writes, hk, App1.Updater.writes]
        have h₂ : s.Writes (.updater u) := by simp [App1.Sys.Writes, hf, App1.Updater.writes]
        have he := hS.inv.lock.write_unique h₁ h₂
        cases he
        exact hku rfl
  | returns hf =>
      rw [hf] at hu
      exact ⟨_, .single (.updater u (.returns hu)),
        hS.of_updater (.returns hf) (Function.update_self ..) rfl (keep rfl (by simp))⟩
  | write hf hl =>
      exact ⟨t, .nil,
        hS.stutter_updater (.write hf hl) hf (Function.update_self ..) rfl (keep rfl (by simp))⟩
  | @assign p hf =>
      refine ⟨t, .nil,
        hS.stutter_updater (.assign hf) hf (Function.update_self ..) rfl fun {r} hr => ?_⟩
      have hr₀ : s.Current r := by
        rcases hr with hr | ⟨k, hk⟩
        · have hpr : p = r := by simpa using hr
          exact .inr ⟨u, hpr ▸ hf⟩
        · by_cases hku : k = u
          · subst hku; simp at hk
          · exact .inr ⟨k, by simpa [hku] using hk⟩
      exact ⟨hr₀.held, hS.config hr₀⟩
  | unwrite hf =>
      exact ⟨t, .nil,
        hS.stutter_updater (.unwrite hf) hf (Function.update_self ..) rfl (keep rfl (by simp))⟩

/-- **`App2` simulates `App1`**. -/
theorem step (hS : Sim s t) (hs : App1.Step s a s') :
    ∃ t', Run App2.Step t a.points t' ∧ Sim s' t' := by
  cases hs with
  | handler h hs => exact hS.handlerStep hs
  | updater u hs => exact hS.updaterStep hs

end Sim

/-! ### From the swap to the lock -/

namespace App1

/-- Not in a section, and with nothing left to do that cannot be seen. -/
def Handler.resting : Handler → Bool
  | unspawned | read _ | print _ _ | done => true
  | _ => false

def Updater.resting : Updater → Bool
  | idle | asRef | write _ | returning => true
  | _ => false

structure Resting (s : Sys) : Prop where
  lock : s.lock = .free
  handler : ∀ h, (s.handler h).resting = true
  updater : ∀ u, (s.updater u).resting = true

namespace Resting

variable {s s' : Sys} {f : Handler} {g : Updater}

theorem init : Resting init := ⟨rfl, fun _ => rfl, fun _ => rfl⟩

theorem config (hR : Resting s) (hI : Inv s) : ∃ p, s.config = some p := by
  refine Option.ne_none_iff_exists'.mp fun hn => ?_
  obtain ⟨u, p, hu⟩ := hI.slot.mp hn
  have := hR.updater u
  rw [hu] at this
  cases this

/-- Handler `h` has gone to the place `f`. -/
theorem of_handler {h : ℕ} (hR : Resting s) (hh : s'.handler = update s.handler h f)
    (hf : f.resting = true) (hl : s'.lock = .free) (hu : s'.updater = s.updater) :
    Resting s' where
  lock := hl
  updater := by rw [hu]; exact hR.updater
  handler k := by
    rw [hh]
    by_cases hk : k = h
    · rw [hk, Function.update_self, hf]
    · rw [Function.update_of_ne hk, hR.handler k]

/-- Updater `u` has gone to the place `g`. -/
theorem of_updater {u : ℕ} (hR : Resting s) (hu : s'.updater = update s.updater u g)
    (hg : g.resting = true) (hl : s'.lock = .free) (hh : s'.handler = s.handler) :
    Resting s' where
  lock := hl
  handler := by rw [hh]; exact hR.handler
  updater k := by
    rw [hu]
    by_cases hk : k = u
    · rw [hk, Function.update_self, hg]
    · rw [Function.update_of_ne hk, hR.updater k]

end Resting

end App1

/-- The steps of `App1` for a step of `App2`: a section is gone through at once. -/
def App2.Label.steps : App2.Label → List App1.Label
  | .handle h data => [.handle h data]
  | .load h => [.read h, .deref h, .increment h, .unread h]
  | .println h data content => [.println h data content, .dropContent h]
  | .printFails h => [.printFails h, .dropContent h]
  | .update u => [.update u]
  | .asRef u new => [.asRef u new]
  | .asRefPanics u => [.asRefPanics u]
  | .store u => [.write u, .dropOld u, .assign u, .unwrite u]
  | .returns u => [.returns u]

theorem points_steps (a : App2.Label) : a.steps.flatMap App1.Label.points = [a] := by
  cases a <;> rfl

/-- A label of `App2` says where the step leads. -/
theorem App2.Step.unique {t t₁ t₂ : App2.Sys} {a : App2.Label} (h₁ : App2.Step t a t₁)
    (h₂ : App2.Step t a t₂) : t₁ = t₂ := by
  cases h₁ with
  | handler h h₁ => cases h₁ <;> rcases h₂ with ⟨_, h₂⟩ | ⟨_, h₂⟩ <;> cases h₂ <;> simp_all
  | updater u h₁ => cases h₁ <;> rcases h₂ with ⟨_, h₂⟩ | ⟨_, h₂⟩ <;> cases h₂ <;> simp_all

namespace Sim

variable {s s' : App1.Sys} {t t' : App2.Sys} {a : App2.Label}

/-- A reader goes through its section. -/
theorem load_run {h data : ℕ} (hS : Sim s t) (hR : App1.Resting s)
    (hf : s.handler h = .read data) :
    ∃ s', Run App1.Step s (App2.Label.load h).steps s' ∧ App1.Resting s' := by
  obtain ⟨p, hp⟩ := hR.config hS.inv
  have hget : s.arcs.get p ≠ none := by
    rw [hS.config (.inl hp)]
    exact Option.some_ne_none t.config
  have hrun : Run App1.Step s (App2.Label.load h).steps _ :=
    Run.cons (.handler h (.read hf hR.lock))
    (Run.cons (.handler h (.deref (Function.update_self ..) hp))
    (Run.cons (.handler h (.increment (Function.update_self ..) hget))
    (Run.single (.handler h (.unread (Function.update_self ..))))))
  refine ⟨_, hrun, hR.of_handler (h := h) (f := .print data p) ?_ rfl ?_ rfl⟩
  · simp only [Function.update_idem]
  · show ((s.lock.read (.handler h)).unread (.handler h)) = .free
    rw [hR.lock]
    simp [RwLock.free, RwLock.read, RwLock.unread]

/-- A handler drops what it has printed. -/
theorem print_run {h data p : ℕ} {b : App1.Label} (hS : Sim s t) (hR : App1.Resting s)
    (hf : s.handler h = .print data p)
    (hb : App1.HandlerStep h s b { s with handler := update s.handler h (.drop p) }) :
    ∃ s', Run App1.Step s [b, .dropContent h] s' ∧ App1.Resting s' := by
  have hheld : s.Holds (some (.handler h)) p := by
    simp [App1.Sys.Holds, hf, App1.Handler.holds]
  obtain ⟨content, hget⟩ := hS.inv.arcs.get_of_holds hheld
  have hne : s.arcs.get p ≠ none := by
    rw [hget]
    exact Option.some_ne_none content
  have hrun : Run App1.Step s [b, .dropContent h] _ := Run.cons (.handler h hb)
    (Run.single (.handler h (.dropContent (Function.update_self ..) hne)))
  refine ⟨_, hrun, hR.of_handler (h := h) (f := .done) ?_ rfl hR.lock rfl⟩
  simp only [Function.update_idem]

/-- An update goes through its section. -/
theorem store_run {u p : ℕ} (hS : Sim s t) (hR : App1.Resting s)
    (hf : s.updater u = .write p) :
    ∃ s', Run App1.Step s (App2.Label.store u).steps s' ∧ App1.Resting s' := by
  obtain ⟨q, hq⟩ := hR.config hS.inv
  have hget : s.arcs.get q ≠ none := by
    rw [hS.config (.inl hq)]
    exact Option.some_ne_none t.config
  have hrun : Run App1.Step s (App2.Label.store u).steps _ :=
    Run.cons (.updater u (.write hf hR.lock))
    (Run.cons (.updater u (.dropOld (Function.update_self ..) hq hget))
    (Run.cons (.updater u (.assign (Function.update_self ..)))
    (Run.single (.updater u (.unwrite (Function.update_self ..))))))
  refine ⟨_, hrun, hR.of_updater (u := u) (g := .returning) ?_ rfl rfl rfl⟩
  simp only [Function.update_idem]

/-- What a resting handler is, from what it looks like. -/
theorem handler_of_abs {A : Arcs String} {f : App1.Handler} (hr : f.resting = true) :
    match f.abs A with
    | .unspawned => f = .unspawned
    | .load data => f = .read data
    | .print data content => ∃ p, f = .print data p ∧ App1.Sys.str A p = content
    | .done => f = .done := by
  cases f <;> simp_all [App1.Handler.resting, App1.Handler.abs]

theorem updater_of_abs {A : Arcs String} {f : App1.Updater} (hr : f.resting = true) :
    match f.abs A with
    | .idle => f = .idle
    | .asRef => f = .asRef
    | .store _ => ∃ p, f = .write p
    | .returning => f = .returning := by
  cases f <;> simp_all [App1.Updater.resting, App1.Updater.abs]

/-- `App1` can take every step of `App2` when it rests, and rest again. -/
theorem steps (hS : Sim s t) (hR : App1.Resting s) (hs : App2.Step t a t') :
    ∃ s', Run App1.Step s a.steps s' ∧ App1.Resting s' := by
  cases hs with
  | handler h hs =>
      have hf := handler_of_abs (A := s.arcs) (hR.handler h)
      rw [← hS.handler h] at hf
      cases hs with
      | handle ht =>
          rw [ht] at hf
          exact ⟨_, .single (.handler h (.handle hf)), hR.of_handler rfl rfl hR.lock rfl⟩
      | load ht =>
          rw [ht] at hf
          exact hS.load_run hR hf
      | println ht =>
          rw [ht] at hf
          obtain ⟨p, hf, hstr⟩ := hf
          refine hS.print_run hR hf (.println hf ?_)
          obtain ⟨c, hget⟩ := hS.inv.arcs.get_of_holds (o := some (.handler h)) (p := p)
            (by simp [App1.Sys.Holds, hf, App1.Handler.holds])
          rw [← hstr, App1.Sys.str, hget]
          rfl
      | printFails ht =>
          rw [ht] at hf
          obtain ⟨p, hf, -⟩ := hf
          exact hS.print_run hR hf (.printFails hf)
  | updater u hs =>
      have hf := updater_of_abs (A := s.arcs) (hR.updater u)
      rw [← hS.updater u] at hf
      cases hs with
      | update ht =>
          rw [ht] at hf
          exact ⟨_, .single (.updater u (.update hf)), hR.of_updater rfl rfl hR.lock rfl⟩
      | asRef ht =>
          rw [ht] at hf
          exact ⟨_, .single (.updater u (.asRef hf)), hR.of_updater rfl rfl hR.lock rfl⟩
      | asRefPanics ht =>
          rw [ht] at hf
          exact ⟨_, .single (.updater u (.asRefPanics hf)), hR.of_updater rfl rfl hR.lock rfl⟩
      | store ht =>
          rw [ht] at hf
          obtain ⟨p, hf⟩ := hf
          exact hS.store_run hR hf
      | returns ht =>
          rw [ht] at hf
          exact ⟨_, .single (.updater u (.returns hf)), hR.of_updater rfl rfl hR.lock rfl⟩

/-- **`App1` simulates `App2`**. -/
theorem back (hS : Sim s t) (hR : App1.Resting s) (hs : App2.Step t a t') :
    ∃ s', Run App1.Step s a.steps s' ∧ Sim s' t' ∧ App1.Resting s' := by
  obtain ⟨s', hr, hR'⟩ := hS.steps hR hs
  obtain ⟨t₁, ht, hS'⟩ := Run.simulate (fun _ _ _ _ hS hs => hS.step hs) hS hr
  rw [points_steps] at ht
  rw [← ht.of_single.unique hs]
  exact ⟨s', hr, hS', hR'⟩

end Sim

/-- **The lock and the swap cannot be told apart**: whatever can be seen of an `App1`, with any
number of handlers and updates in any order, can be seen of an `App2`, and the other way round. -/
theorem same_histories : histories App1.Step App1.Label.events App1.init =
    histories App2.Step App2.Label.events App2.init := by
  refine Set.Subset.antisymm ?_ ?_
  · refine histories_subset (R := Sim) (g := App1.Label.points) (fun _ _ _ _ hS hs => hS.step hs)
      (fun a => ?_) .init
    cases a <;> rfl
  · refine histories_subset (R := fun t s => Sim s t ∧ App1.Resting s) (g := App2.Label.steps)
      (fun t s a t' hR hs => ?_) (fun a => ?_) ⟨.init, .init⟩
    · exact hR.1.back hR.2 hs
    · cases a <;> rfl

/-! ### What a handler prints -/

namespace App1

variable {s s' m₁ : Sys} {a : Label} {tr : List Label} {i data p : ℕ} {c : String}

/-- In the run with the trace `tr` from `m₁`, the handler `i` has read the pointer `p` to `c`. -/
def ReadSince (i : ℕ) (m₁ : Sys) (tr : List Label) (p : ℕ) (c : String) : Prop :=
  ∃ tr₁ tr₂ m, tr = tr₁ ++ .deref i :: tr₂ ∧ Run Step m₁ tr₁ m ∧ m.config = some p ∧
    m.arcs.get p = some c

/-- ... and `c` is still there. -/
def Found (i : ℕ) (m₁ : Sys) (tr : List Label) (s : Sys) (p : ℕ) : Prop :=
  ∃ c, s.arcs.get p = some c ∧ ReadSince i m₁ tr p c

/-- Where a handler can be after it was spawned with `data`, if `F` holds of the pointer. -/
def Handler.Seen (data : ℕ) (F : ℕ → Prop) : Handler → Prop
  | unspawned => False
  | read d | deref d => d = data
  | increment d p | unread d p | print d p => d = data ∧ F p
  | drop _ | done => True

theorem Found.later {q q' : Option Party} (h : Found i m₁ tr s p) (hI : Inv s) (hs : Step s a s')
    (hq : s.Holds q p) (hq' : s'.Holds q' p) : Found i m₁ (tr ++ [a]) s' p := by
  obtain ⟨c, hc, tr₁, tr₂, m, rfl, hm⟩ := h
  exact ⟨c, (hI.get_kept hs hq hq').trans hc, tr₁, tr₂ ++ [a], m, by simp, hm⟩

theorem Handler.Seen.imp {F G : ℕ → Prop} {f : Handler} (h : f.Seen data F)
    (hFG : ∀ p, f.content = some p → F p → G p) : f.Seen data G := by
  cases f with
  | increment d p | unread d p | print d p => exact ⟨h.1, hFG p rfl h.2⟩
  | unspawned | read | deref | drop | done => exact h

/-- A handler that moves reads the pointer, or keeps what it has read. -/
theorem HandlerStep.seen (h : (s.handler i).Seen data (Found i m₁ tr s)) (hI : Inv s)
    (hr : Run Step m₁ tr s) (hs : HandlerStep i s a s') :
    (s'.handler i).Seen data (Found i m₁ (tr ++ [a]) s') := by
  have hstep := Step.handler i hs
  have keep : ∀ {p}, (s.handler i).content = some p → (s'.handler i).content = some p →
      Found i m₁ tr s p → Found i m₁ (tr ++ [a]) s' p := fun hp hp' hF => by
    obtain ⟨q, hq⟩ := hI.content_held hp
    obtain ⟨q', hq'⟩ := (hI.step hstep).content_held hp'
    exact hF.later hI hstep hq hq'
  cases hs with
  | handle hf => rw [hf] at h; exact h.elim
  | read hf =>
      rw [hf] at h
      simp only [Function.update_self]
      exact h
  | @deref d p hf hc =>
      rw [hf] at h
      simp only [Function.update_self]
      obtain ⟨c, hget⟩ := hI.arcs.get_of_holds (o := none) hc
      exact ⟨h, c, hget, tr, [], s, rfl, hr, hc, hget⟩
  | increment hf | unread hf =>
      have hkeep := keep (by rw [hf]; rfl) (by simp only [Function.update_self]; rfl)
      rw [hf] at h
      simp only [Function.update_self]
      exact ⟨h.1, hkeep h.2⟩
  | println | printFails | dropContent =>
      simp only [Function.update_self]
      trivial

theorem Step.seen (h : (s.handler i).Seen data (Found i m₁ tr s)) (hI : Inv s)
    (hr : Run Step m₁ tr s) (hs : Step s a s') :
    (s'.handler i).Seen data (Found i m₁ (tr ++ [a]) s') := by
  have others : s'.handler i = s.handler i →
      (s'.handler i).Seen data (Found i m₁ (tr ++ [a]) s') := fun he => by
    rw [he]
    refine h.imp fun p hp hF => ?_
    obtain ⟨q, hq⟩ := hI.content_held hp
    obtain ⟨q', hq'⟩ := (hI.step hs).content_held (he ▸ hp)
    exact hF.later hI hs hq hq'
  cases hs with
  | updater u hs => exact others (by rw [hs.frame.handler])
  | handler k hs =>
      by_cases hk : i = k
      · subst hk
        exact hs.seen h hI hr
      · exact others (hs.frame.others i hk)

/-- **A handler prints the configuration of a moment of its own life**: what `handle(data)` prints
is what was behind the lock at some moment after it was spawned, whatever was stored since. -/
theorem prints_current {data' : ℕ} {tr₁ tr₂ tr₃ : List Label}
    (h : Run Step init (tr₁ ++ .handle i data :: (tr₂ ++ .println i data' c :: tr₃)) s) :
    data' = data ∧ ∃ tr₄ tr₅ m p, tr₂ = tr₄ ++ .deref i :: tr₅ ∧
      Run Step init (tr₁ ++ .handle i data :: tr₄) m ∧ m.config = some p ∧
        m.arcs.get p = some c := by
  obtain ⟨m₀, m₁, h₀, hspawn, h⟩ := h.split_at
  obtain ⟨m₂, m₃, h₂, hprint, -⟩ := h.split_at
  have hm₁ := h₀.snoc hspawn
  have hstart : (m₁.handler i).Seen data (Found i m₁ [] m₁) := by
    cases hspawn with
    | updater u hs => cases hs
    | handler k hs =>
        cases hs with
        | handle hf => simp only [Function.update_self, Handler.Seen]
  have hseen : (m₂.handler i).Seen data (Found i m₁ tr₂ m₂) :=
    h₂.invariant (I := fun tr s => (s.handler i).Seen data (Found i m₁ tr s)) hstart
      fun tr s a s' hr hi hs => hs.seen hi (Inv.of_run (hm₁.trans hr)) hr
  cases hprint with
  | updater u hs => cases hs
  | handler k hs =>
      cases hs with
      | println hf hc =>
          rw [hf] at hseen
          obtain ⟨hd, c', hget, tr₄, tr₅, m, rfl, hm, hconf, hval⟩ := hseen
          rw [hc, Option.some.injEq] at hget
          subst hget
          refine ⟨hd, tr₄, tr₅, m, _, rfl, ?_, hconf, hval⟩
          have := hm₁.trans hm
          simpa using this

/-- A handler that prints a configuration which was replaced after it had read it. -/
theorem prints_current_replaced : ∃ tr₁ tr₂ s, Run Step init
    (tr₁ ++ .handle 0 5 :: (tr₂ ++ [.println 0 5 ""])) s ∧ .dropOld 0 ∈ tr₂ ∧
    ∃ tr₄ tr₅ m p, tr₂ = tr₄ ++ .deref 0 :: tr₅ ∧
      Run Step init (tr₁ ++ .handle 0 5 :: tr₄) m ∧ m.config = some p ∧
        m.arcs.get p = some "" := by
  have h : Run Step init (([] : List Label) ++ .handle 0 5 :: ([.read 0, .deref 0, .increment 0,
      .unread 0, .update 0, .asRef 0 "new", .write 0, .dropOld 0] ++ [.println 0 5 ""])) _ :=
    (.nil : Run Step init [] init)
    |>.snoc (.handler 0 (.handle rfl)) |>.snoc (.handler 0 (.read rfl rfl))
    |>.snoc (.handler 0 (.deref rfl rfl)) |>.snoc (.handler 0 (.increment rfl (by decide)))
    |>.snoc (.handler 0 (.unread rfl)) |>.snoc (.updater 0 (.update rfl))
    |>.snoc (.updater 0 (.asRef rfl)) |>.snoc (.updater 0 (.write rfl rfl))
    |>.snoc (.updater 0 (.dropOld rfl rfl (by decide))) |>.snoc (.handler 0 (.println rfl rfl))
  exact ⟨_, _, _, h, by decide, (prints_current h).2⟩

end App1

end CorustHackathon.ArcSwap
