import CorustHackathon.TaskManager.Step

/-! # The task manager: who holds the locks

`LockInv` says that the guards of `waiting` and `ongoing` that are out are those of the parties
whose program counter is in a section of that lock.  Mutual exclusion of the sections follows
(`RwLock.Owned.write_unique`, `RwLock.Owned.write_not_read`). -/

namespace CorustHackathon.TaskManager

open Function (update)

attribute [simp] Call.writesWaiting Call.readsOngoing Fut.writesWaiting Fut.writesOngoing
  Dropping.writesWaiting Dropping.writesOngoing Sys.writesWaiting Sys.writesOngoing
  Sys.readsOngoing

/-- The locks and the program counters agree. -/
structure LockInv (s : Sys) : Prop where
  waiting : s.waitingLock.Owned s.writesWaiting fun _ => False
  ongoing : s.ongoingLock.Owned s.writesOngoing s.readsOngoing

/-- Only party `p` has moved. -/
structure Moves (s s' : Sys) (p : Party) : Prop where
  writesWaiting : ∀ q, q ≠ p → (s'.writesWaiting q ↔ s.writesWaiting q)
  writesOngoing : ∀ q, q ≠ p → (s'.writesOngoing q ↔ s.writesOngoing q)
  readsOngoing : ∀ q, q ≠ p → (s'.readsOngoing q ↔ s.readsOngoing q)

namespace Moves

variable {s s' : Sys}

theorem call {c : ℕ} {x : Call} (hc : s'.call = update s.call c x) (hf : s'.fut = s.fut)
    (hd : s'.dropping = s.dropping) : Moves s s' (.caller c) := by
  constructor <;> intro q hq <;> cases q with
  | caller c' =>
      have : c' ≠ c := fun h => hq (by rw [h])
      simp [hc, this]
  | _ => simp [hf, hd]

theorem fut {t : ℕ} {x : Fut} (hc : s'.call = s.call) (hf : s'.fut = update s.fut t x)
    (hd : s'.dropping = s.dropping) : Moves s s' (.future t) := by
  constructor <;> intro q hq <;> cases q with
  | future t' =>
      have : t' ≠ t := fun h => hq (by rw [h])
      simp [hf, this]
  | _ => simp [hc, hd]

theorem drop (hc : s'.call = s.call) (hf : s'.fut = s.fut) : Moves s s' .dropper := by
  constructor <;> intro q hq <;> cases q with
  | dropper => exact absurd rfl hq
  | _ => simp [hc, hf]

end Moves

namespace LockInv

variable {s s' : Sys} {p : Party}

/-- A step of `p` outside of the locks, or inside of one section. -/
theorem same (hI : LockInv s) (hm : Moves s s' p) (hw : s'.waitingLock = s.waitingLock)
    (ho : s'.ongoingLock = s.ongoingLock) (h₁ : s'.writesWaiting p ↔ s.writesWaiting p)
    (h₂ : s'.writesOngoing p ↔ s.writesOngoing p) (h₃ : s'.readsOngoing p ↔ s.readsOngoing p) :
    LockInv s' :=
  ⟨hw ▸ hI.waiting.same hm.writesWaiting (fun _ _ => Iff.rfl) h₁ Iff.rfl,
    ho ▸ hI.ongoing.same hm.writesOngoing hm.readsOngoing h₂ h₃⟩

/-- `waiting.write()` -/
theorem lockWaiting (hI : LockInv s) (hm : Moves s s' p) (hfree : s.waitingLock = .free)
    (hw : s'.waitingLock = .writing p) (ho : s'.ongoingLock = s.ongoingLock)
    (h₁ : s'.writesWaiting p) (h₂ : s'.writesOngoing p ↔ s.writesOngoing p)
    (h₃ : s'.readsOngoing p ↔ s.readsOngoing p) : LockInv s' :=
  ⟨hw ▸ hI.waiting.write hfree hm.writesWaiting (fun _ _ => Iff.rfl) h₁ id,
    ho ▸ hI.ongoing.same hm.writesOngoing hm.readsOngoing h₂ h₃⟩

/-- The guard of `waiting` is dropped. -/
theorem unlockWaiting (hI : LockInv s) (hm : Moves s s' p) (hp : s.writesWaiting p)
    (hw : s'.waitingLock = .free) (ho : s'.ongoingLock = s.ongoingLock)
    (h₁ : ¬ s'.writesWaiting p) (h₂ : s'.writesOngoing p ↔ s.writesOngoing p)
    (h₃ : s'.readsOngoing p ↔ s.readsOngoing p) : LockInv s' :=
  ⟨hw ▸ hI.waiting.unwrite hp hm.writesWaiting (fun _ _ => Iff.rfl) h₁ id,
    ho ▸ hI.ongoing.same hm.writesOngoing hm.readsOngoing h₂ h₃⟩

/-- `ongoing.write()` -/
theorem lockOngoing (hI : LockInv s) (hm : Moves s s' p) (hfree : s.ongoingLock = .free)
    (ho : s'.ongoingLock = .writing p) (hw : s'.waitingLock = s.waitingLock)
    (h₁ : s'.writesWaiting p ↔ s.writesWaiting p) (h₂ : s'.writesOngoing p)
    (h₃ : ¬ s'.readsOngoing p) : LockInv s' :=
  ⟨hw ▸ hI.waiting.same hm.writesWaiting (fun _ _ => Iff.rfl) h₁ Iff.rfl,
    ho ▸ hI.ongoing.write hfree hm.writesOngoing hm.readsOngoing h₂ h₃⟩

/-- The write guard of `ongoing` is dropped. -/
theorem unlockOngoing (hI : LockInv s) (hm : Moves s s' p) (hp : s.writesOngoing p)
    (ho : s'.ongoingLock = .free) (hw : s'.waitingLock = s.waitingLock)
    (h₁ : s'.writesWaiting p ↔ s.writesWaiting p) (h₂ : ¬ s'.writesOngoing p)
    (h₃ : ¬ s'.readsOngoing p) : LockInv s' :=
  ⟨hw ▸ hI.waiting.same hm.writesWaiting (fun _ _ => Iff.rfl) h₁ Iff.rfl,
    ho ▸ hI.ongoing.unwrite hp hm.writesOngoing hm.readsOngoing h₂ h₃⟩

/-- `ongoing.read()` -/
theorem readOngoing {ps : Finset Party} (hI : LockInv s) (hm : Moves s s' p)
    (hps : s.ongoingLock = .reading ps) (ho : s'.ongoingLock = s.ongoingLock.read p)
    (hw : s'.waitingLock = s.waitingLock) (h₁ : s'.writesWaiting p ↔ s.writesWaiting p)
    (h₂ : ¬ s'.writesOngoing p) (h₃ : s'.readsOngoing p) : LockInv s' :=
  ⟨hw ▸ hI.waiting.same hm.writesWaiting (fun _ _ => Iff.rfl) h₁ Iff.rfl,
    ho ▸ hI.ongoing.read hps hm.writesOngoing hm.readsOngoing h₂ h₃⟩

/-- A read guard of `ongoing` is dropped. -/
theorem unreadOngoing (hI : LockInv s) (hm : Moves s s' p) (hp : s.readsOngoing p)
    (ho : s'.ongoingLock = s.ongoingLock.unread p) (hw : s'.waitingLock = s.waitingLock)
    (h₁ : s'.writesWaiting p ↔ s.writesWaiting p) (h₂ : ¬ s'.writesOngoing p)
    (h₃ : ¬ s'.readsOngoing p) : LockInv s' :=
  ⟨hw ▸ hI.waiting.same hm.writesWaiting (fun _ _ => Iff.rfl) h₁ Iff.rfl,
    ho ▸ hI.ongoing.unread hp hm.writesOngoing hm.readsOngoing h₂ h₃⟩

/-- A step that moves no party that ever locks. -/
theorem congr (hI : LockInv s) (hc : s'.call = s.call)
    (hf : ∀ t, (s'.fut t).writesWaiting = (s.fut t).writesWaiting ∧
      (s'.fut t).writesOngoing = (s.fut t).writesOngoing)
    (hd : s'.dropping = s.dropping) (hw : s'.waitingLock = s.waitingLock)
    (ho : s'.ongoingLock = s.ongoingLock) : LockInv s' := by
  have hW : s'.writesWaiting = s.writesWaiting := by
    funext p; cases p <;> simp only [Sys.writesWaiting, hc, hd, (hf _).1]
  have hO : s'.writesOngoing = s.writesOngoing := by
    funext p; cases p <;> simp only [Sys.writesOngoing, hd, (hf _).2]
  have hR : s'.readsOngoing = s.readsOngoing := by
    funext p; cases p <;> simp only [Sys.readsOngoing, hc]
  exact ⟨by rw [hw, hW]; exact hI.waiting, by rw [ho, hO, hR]; exact hI.ongoing⟩

theorem init (n KEY : ℕ) : LockInv (init n KEY) :=
  ⟨.free_init (fun p => by cases p <;> simp [TaskManager.init, Manager.new]) fun _ => id,
    .free_init (fun p => by cases p <;> simp [TaskManager.init, Manager.new])
      fun p => by cases p <;> simp [TaskManager.init, Manager.new]⟩

theorem callStep {c : ℕ} {a : Label} (hI : LockInv s) (h : CallStep c s a s') : LockInv s' := by
  cases h with
  | lockInsert h hl | lockRemove h hl =>
      exact hI.lockWaiting (.call rfl rfl rfl) hl rfl rfl (by simp) (by simp) (by simp [h])
  | insert h | removed h | notWaiting h =>
      exact hI.unlockWaiting (.call rfl rfl rfl) (by simp [h]) rfl rfl (by simp) (by simp)
        (by simp [h])
  | readOngoing h hl =>
      exact hI.readOngoing (.call rfl rfl rfl) hl rfl rfl (by simp [h]) (by simp) (by simp)
  | signalled h | notFound h =>
      exact hI.unreadOngoing (.call rfl rfl rfl) (by simp [h]) rfl rfl (by simp [h]) (by simp)
        (by simp)
  | callSpawn hd h | callCancel hd h =>
      exact hI.same (.call rfl rfl rfl) rfl rfl (by simp [h]) (by simp) (by simp [h])
  | fetchAdd h | spawnOk h | spawnErr h =>
      exact hI.same (.call rfl rfl rfl) rfl rfl (by simp [h]) (by simp) (by simp [h])

theorem futStep {t : ℕ} {a : Label} (hI : LockInv s) (h : FutStep t s a s') : LockInv s' := by
  cases h with
  | lockOngoing h hl | lockEnd h hl =>
      exact hI.lockOngoing (.fut rfl rfl rfl) hl rfl rfl (by simp [h]) (by simp) (by simp)
  | lockWaiting h hl =>
      exact hI.lockWaiting (.fut rfl rfl rfl) hl rfl rfl (by simp) (by simp [h]) (by simp)
  | take h | miss h =>
      exact hI.unlockWaiting (.fut rfl rfl rfl) (by simp [h]) rfl rfl (by simp) (by simp [h])
        (by simp)
  | elseReturn h | enter h | leave h =>
      exact hI.unlockOngoing (.fut rfl rfl rfl) (by simp [h]) rfl rfl (by simp [h]) (by simp)
        (by simp)
  | panic h hb =>
      refine hI.same (.fut rfl rfl rfl) rfl rfl ?_ ?_ (by simp) <;>
        (revert h; cases hf : s.fut t <;> simp [Fut.inCallback, hf])
  | acquire h | passBegin h | tokenPending h | tokenCancelled h | select h | pollRun h | skipRun h
  | runPending h | runOk h | runErr h | passEnd h | onErrPending h | onErrReturn h
  | onCancelPending h | onCancelReturn h | release h =>
      exact hI.same (.fut rfl rfl rfl) rfl rfl (by simp [h]) (by simp [h]) (by simp)

theorem dropStep {a : Label} (hI : LockInv s) (h : DropStep s a s') : LockInv s' := by
  cases h with
  | dropLockWaiting h hl =>
      exact hI.lockWaiting (.drop rfl rfl) hl rfl rfl (by simp) (by simp [h]) (by simp)
  | drain h =>
      exact hI.unlockWaiting (.drop rfl rfl) (by simp [h]) rfl rfl (by simp) (by simp [h]) (by simp)
  | dropLockOngoing h hl =>
      exact hI.lockOngoing (.drop rfl rfl) hl rfl rfl (by simp [h]) (by simp) (by simp)
  | cancelAll h =>
      exact hI.unlockOngoing (.drop rfl rfl) (by simp [h]) rfl rfl (by simp [h]) (by simp) (by simp)
  | dropBegin h | takeTx h | joinOk h | joinErr h =>
      exact hI.same (.drop rfl rfl) rfl rfl (by simp [h]) (by simp [h]) (by simp)

theorem step {a : Label} (hI : LockInv s) (hf : ∀ t ∈ s.chan, s.fut t = .unspawned)
    (h : Step s a s') : LockInv s' := by
  cases h with
  | other => exact hI.congr rfl (fun _ => ⟨rfl, rfl⟩) rfl rfl rfl
  | own h =>
      cases h with
      | call c h => exact hI.callStep h
      | fut t h => exact hI.futStep h
      | drop h => exact hI.dropStep h
      | background h =>
          cases h with
          | @receive t rest hb hc =>
              have ht : s.fut t = .unspawned := hf t (by simp [hc])
              refine hI.congr rfl (fun u => ?_) rfl rfl rfl
              by_cases hu : u = t
              · subst hu; simp [ht]
              · simp [hu]
          | _ => exact hI.congr rfl (fun _ => ⟨rfl, rfl⟩) rfl rfl rfl

end LockInv

end CorustHackathon.TaskManager
