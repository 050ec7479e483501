import CorustHackathon.TailingFile.Returns

/-! # The tail delivers a suffix of the file

The history says what the callers have seen: the buffers that the polls began with, the bytes put
into them and the results.  One open succeeds, its seek found the file as long as the position that
the tail starts from, and the bytes of all polls together are what the file holds from there on,
without a gap and whatever errors and answers `Pending` have come between them. -/

namespace CorustHackathon.TailingFile

/-! ### The history -/

namespace Label

/-- The bytes that the poll has put into its buffer. -/
def bytes : Label → List UInt8
  | readyOk _ bs => bs
  | _ => []

/-- The position that the open has returned with. -/
def opens : Label → List ℕ
  | opened p => [p]
  | _ => []

/-- The length of the file that the seek has found. -/
def seeks : Label → List ℕ
  | runSeek (.ok p) => [p]
  | _ => []

/-- The buffer that a poll begins with. -/
def begun : Label → List ReadBuf
  | begin _ b => [b]
  | _ => []

/-- The file is read, or an answer of a read is looked at. -/
def reads : Label → Bool
  | spawnRead _ | runRead _ | readExhausted | readPending | readyOk _ _ | noBytes _
  | readFailed _ => true
  | _ => false

end Label

/-- The bytes delivered in a history. -/
def bytes (tr : List Label) : List UInt8 := tr.flatMap Label.bytes

/-- The opens that have succeeded, as the positions they have returned with. -/
def opens (tr : List Label) : List ℕ := tr.flatMap Label.opens

/-- The seeks that have succeeded, as the lengths they have found. -/
def seeks (tr : List Label) : List ℕ := tr.flatMap Label.seeks

/-- The buffer of the last poll, as it was when the poll began. -/
def buffer (tr : List Label) : Option ReadBuf := (tr.flatMap Label.begun).getLast?

/-! ### What the state remembers -/

/-- The position that the open has returned with. -/
def MaybeDone.opens : MaybeDone → List ℕ
  | done (.ok f) => [f.start]
  | _ => []

/-- The length that the seek has found. -/
def FileFut.seeks : FileFut → List ℕ
  | seeking (.ran (.ok p) _) | seeking (.complete (.ok p)) => [p]
  | _ => []

def MaybeDone.seeks : MaybeDone → List ℕ
  | future o => o.seeks
  | done (.ok f) => [f.start]
  | _ => []

/-- The buffer of the poll that goes on. -/
def Pc.buffer : Pc → Option ReadBuf
  | .loop b | .reading b | .opening b | .register b | .pending b => some b
  | _ => none

theorem Step.delivered {s s' : Sys} {a : Label} (h : Step s a s') :
    s'.delivered = s.delivered ++ a.bytes := by
  cases h with
  | poll h =>
      cases h with
      | copyReady | readReady => rfl
      | copyNothing hp hf hi hb hg | readNothing hp hf hi hb hg =>
          simp [Sys.copy, ReadBuf.take_of_not_grows hg, Label.bytes]
      | _ => simp [Label.bytes]
  | pool h => cases h <;> simp [Label.bytes]
  | writer h => cases h <;> simp [Label.bytes]
  | watcher h => cases h <;> simp [Label.bytes]

theorem Step.opens {s s' : Sys} {a : Label} (h : Step s a s') :
    s'.file.opens = s.file.opens ++ a.opens := by
  cases h with
  | poll h =>
      cases h with
      | begin | matchOpened | matchFuture | panic | openExhausted | seekExhausted | readExhausted
      | register | returnPending => simp [Label.opens]
      | takeError hp hf | spawnOpen hp hf | openPending hp hf | spawnSeek hp hf | renew hp hf
      | openFailed hp hf | seekPending hp hf | opened hp hf | seekFailed hp hf | spawnRead hp hf
      | copyReady hp hf | copyNothing hp hf | readPending hp hf | readReady hp hf
      | readNothing hp hf | readFailed hp hf => simp [hf, MaybeDone.opens, Label.opens, Sys.copy]
  | pool h =>
      cases h with
      | runOpen hf | runOpenMissing hf | runOpenError hf | runSeek hf | runSeekError hf
      | runRead hf | runReadError hf | completeOpen hf | completeSeek hf | completeRead hf =>
          simp [hf, MaybeDone.opens, Label.opens]
  | writer h => cases h <;> simp [Label.opens]
  | watcher h => cases h <;> simp [Label.opens]

theorem Step.seeks {s s' : Sys} {a : Label} (h : Step s a s') :
    s'.file.seeks = s.file.seeks ++ a.seeks := by
  cases h with
  | poll h =>
      cases h with
      | begin | matchOpened | matchFuture | panic | openExhausted | seekExhausted | readExhausted
      | register | returnPending => simp [Label.seeks]
      | seekPending hp hf hb hj =>
          rename_i j
          rw [hf]
          cases j with
          | queued w => rfl
          | ran r w => cases r <;> rfl
          | complete r => cases hj
      | takeError hp hf | spawnOpen hp hf | openPending hp hf | spawnSeek hp hf | renew hp hf
      | openFailed hp hf | opened hp hf | seekFailed hp hf | spawnRead hp hf
      | copyReady hp hf | copyNothing hp hf | readPending hp hf | readReady hp hf
      | readNothing hp hf | readFailed hp hf =>
          simp [hf, MaybeDone.seeks, FileFut.seeks, Label.seeks, Sys.copy]
  | pool h =>
      cases h with
      | completeSeek hf =>
          rename_i r w
          rw [hf]
          cases r <;> rfl
      | runOpen hf | runOpenMissing hf | runOpenError hf | runSeek hf | runSeekError hf
      | runRead hf | runReadError hf | completeOpen hf | completeRead hf =>
          simp [hf, MaybeDone.seeks, FileFut.seeks, Label.seeks]
  | writer h => cases h <;> simp [Label.seeks]
  | watcher h => cases h <;> simp [Label.seeks]

/-- A poll keeps the buffer it began with until it returns. -/
theorem Step.buffer {s s' : Sys} {a : Label} {b : ReadBuf} (h : Step s a s')
    (hb : s'.pc.buffer = some b) :
    a.begun = [b] ∨ (a.begun = [] ∧ s.pc.buffer = some b) := by
  cases h with
  | poll h =>
      cases h with
      | begin =>
          cases hb
          exact .inl rfl
      | spawnOpen | openExhausted | openPending | spawnSeek | seekExhausted | seekPending
      | spawnRead => exact .inr ⟨rfl, hb⟩
      | matchOpened hp | matchFuture hp | renew hp | openFailed hp | opened hp | seekFailed hp
      | readExhausted hp | readPending hp | register hp => exact .inr ⟨rfl, by rw [hp]; exact hb⟩
      | copyNothing hp hf hi hr hg | readNothing hp hf hi hr hg =>
          refine .inr ⟨rfl, ?_⟩
          rw [hp, ← ReadBuf.put_of_not_grows hg]
          exact hb
      | takeError | panic | copyReady | readReady | readFailed | returnPending => cases hb
  | pool h =>
      rw [h.file.1] at hb
      cases h <;> exact .inr ⟨rfl, hb⟩
  | writer h => cases h <;> exact .inr ⟨rfl, hb⟩
  | watcher h => cases h <;> exact .inr ⟨rfl, hb⟩

/-! ### What holds along a run -/

section run

variable {c : Option (List UInt8)} {tr : List Label} {s : Sys}

theorem delivered_eq (h : Run Step (init c) tr s) : s.delivered = bytes tr :=
  h.flatMap_eq (f := Sys.delivered) fun _ _ _ hs => hs.delivered

theorem opens_eq (h : Run Step (init c) tr s) : s.file.opens = opens tr :=
  h.flatMap_eq (f := fun s => s.file.opens) fun _ _ _ hs => hs.opens

theorem seeks_eq (h : Run Step (init c) tr s) : s.file.seeks = seeks tr :=
  h.flatMap_eq (f := fun s => s.file.seeks) fun _ _ _ hs => hs.seeks

theorem buffer_eq (h : Run Step (init c) tr s) {b : ReadBuf} (hb : s.pc.buffer = some b) :
    buffer tr = some b := by
  refine h.invariant (I := fun tr s => ∀ b, s.pc.buffer = some b → buffer tr = some b) nofun
    (fun tr s₁ a s₂ _ hi hs b hb => ?_) b hb
  rw [buffer, List.flatMap_append, List.flatMap_singleton]
  rcases hs.buffer hb with ha | ⟨ha, hb⟩
  · rw [ha]
    simp
  · rw [ha, List.append_nil]
    exact hi b hb

/-- An open that has succeeded is the open of the file that is read, and its seek is the only one
that has succeeded. -/
theorem opened_file (h : Run Step (init c) tr s) {p : ℕ} (hp : p ∈ opens tr) :
    opens tr = [p] ∧ seeks tr = [p] ∧ ∃ f, s.file = .done (.ok f) ∧ f.start = p := by
  rw [← opens_eq h] at hp
  rw [← opens_eq h, ← seeks_eq h]
  cases hf : s.file with
  | future o => rw [hf] at hp; cases hp
  | done r =>
      rw [hf] at hp
      cases r with
      | error e => cases hp
      | ok f =>
          obtain rfl := List.mem_singleton.mp hp
          exact ⟨rfl, rfl, f, rfl, rfl⟩
  | gone => rw [hf] at hp; cases hp

/-- The length that the seek has found is that of the file when it ran. -/
theorem seek_ran (h : Run Step (init c) tr s) {p : ℕ} (hp : p ∈ seeks tr) :
    ∃ tr₁ tr₂ m, tr = tr₁ ++ .runSeek (.ok p) :: tr₂ ∧ Run Step (init c) tr₁ m ∧
      m.content.map List.length = some p := by
  obtain ⟨a, ha, hp⟩ := List.mem_flatMap.mp hp
  obtain ⟨r, rfl⟩ : ∃ r, a = .runSeek r := by cases a <;> first | exact ⟨_, rfl⟩ | cases hp
  cases r with
  | error e => cases hp
  | ok q =>
      obtain rfl := List.mem_singleton.mp hp
      obtain ⟨tr₁, tr₂, rfl⟩ := List.append_of_mem ha
      obtain ⟨m, m', h₁, hs, -⟩ := h.split_at
      refine ⟨tr₁, tr₂, m, rfl, h₁, ?_⟩
      cases hs with
      | pool hs =>
          cases hs with
          | runSeek hf hc => rw [hc]; rfl
      | poll hs | writer hs | watcher hs => cases hs

end run

/-! ### The results of the polls -/

theorem Step.returnPending {s s' : Sys} {b : ReadBuf} (h : Step s (.returnPending b) s') :
    s.pc.buffer = some b := by
  cases h with
  | poll h =>
      cases h with
      | returnPending hp => rw [hp]; rfl
  | pool h | writer h | watcher h => cases h

theorem Step.readyOk {s s' : Sys} {b : ReadBuf} {bs : List UInt8} (h : Step s (.readyOk b bs) s') :
    bs ≠ [] ∧ ∃ b₀, s.pc.buffer = some b₀ ∧ b.filled = b₀.filled ++ bs ∧
      b.capacity = b₀.capacity := by
  cases h with
  | poll h =>
      cases h with
      | copyReady hp hf hi hr hg | readReady hp hf hi hr hg =>
          exact ⟨ReadBuf.take_of_grows hg, _, by rw [hp]; rfl, rfl, rfl⟩
  | pool h | writer h | watcher h => cases h

/-- What is read is a file that was opened and seeked. -/
theorem Step.reads {s s' : Sys} {a : Label} (h : Step s a s') (ha : a.reads = true) :
    ∃ f, s.file = .done (.ok f) := by
  cases h with
  | poll h => cases h <;> first | exact ⟨_, ‹_›⟩ | cases ha
  | pool h => cases h <;> first | exact ⟨_, ‹_›⟩ | cases ha
  | writer h | watcher h => cases h <;> cases ha

/-- What the history `tr` of a tail looks like in the state `s`. -/
structure Tails (c : Option (List UInt8)) (tr : List Label) (s : Sys) : Prop where
  /-- The open succeeds at most once. -/
  once : (opens tr).length ≤ 1
  /-- Its seek, the only one that succeeds, has run where the file had the length `p`. -/
  seeked : ∀ p ∈ opens tr, seeks tr = [p] ∧ ∃ tr₁ tr₂ m, tr = tr₁ ++ .runSeek (.ok p) :: tr₂ ∧
    Run Step (init c) tr₁ m ∧ m.content.map List.length = some p
  /-- The bytes delivered are those from `p` on. -/
  suffix : ∀ p ∈ opens tr, ∃ k, s.content = some k ∧
    bytes tr = (k.drop p).take (bytes tr).length
  unopened : opens tr = [] → bytes tr = []
  /-- A poll that returns `Pending` leaves its buffer as it was. -/
  pending : ∀ tr₁ b tr₂, tr = tr₁ ++ .returnPending b :: tr₂ → buffer tr₁ = some b
  /-- A poll that returns `Ready(Ok)` has appended at least one byte. -/
  ready : ∀ tr₁ b bs tr₂, tr = tr₁ ++ .readyOk b bs :: tr₂ →
    bs ≠ [] ∧ ∃ b₀, buffer tr₁ = some b₀ ∧ b.filled = b₀.filled ++ bs ∧ b.capacity = b₀.capacity
  /-- No read comes before the open and its seek. -/
  read : ∀ tr₁ a tr₂, tr = tr₁ ++ a :: tr₂ → a.reads = true → opens tr₁ ≠ []
  /-- `FileFut::poll` returns `Pending` only with a new future. -/
  renewed : ∀ m a m' b, Run Step (init c) tr m → Step m a m' → m.pc = .opening b →
    m'.pc = .register b → m'.file = .future .fresh
  /-- Outside of `FileFut::poll`, an open that has not finished has never been polled. -/
  fresh : ∀ o, s.file = .future o → (∀ b, s.pc ≠ .opening b) → o = .fresh

/-- **After the open, the tail delivers a gap-free suffix of the file**, for every schedule of polls
with buffers of any size, every outcome of the system calls, and every creation and append. -/
theorem tail_delivers_suffix {c : Option (List UInt8)} {tr : List Label} {s : Sys}
    (h : Run Step (init c) tr s) : Tails c tr s where
  once := by
    rw [← opens_eq h]
    cases s.file with
    | future o | gone => exact Nat.zero_le 1
    | done r => cases r <;> simp [MaybeDone.opens]
  seeked p hp := by
    obtain ⟨-, hs, -⟩ := opened_file h hp
    exact ⟨hs, seek_ran h (by rw [hs]; exact List.mem_singleton_self p)⟩
  suffix p hp := by
    obtain ⟨-, -, f, hf, rfl⟩ := opened_file h hp
    rw [← delivered_eq h]
    exact (Inv.of_run h).delivered hf
  unopened hn := by
    rw [← delivered_eq h]
    rw [← opens_eq h] at hn
    exact (Inv.of_run h).undelivered fun f hf => by simp [hf, MaybeDone.opens] at hn
  pending tr₁ b tr₂ he := by
    subst he
    obtain ⟨m, m', h₁, hs, -⟩ := h.split_at
    exact buffer_eq h₁ hs.returnPending
  ready tr₁ b bs tr₂ he := by
    subst he
    obtain ⟨m, m', h₁, hs, -⟩ := h.split_at
    obtain ⟨hbs, b₀, hb, hput⟩ := hs.readyOk
    exact ⟨hbs, b₀, buffer_eq h₁ hb, hput⟩
  read tr₁ a tr₂ he ha := by
    subst he
    obtain ⟨m, m', h₁, hs, -⟩ := h.split_at
    obtain ⟨f, hf⟩ := hs.reads ha
    rw [← opens_eq h₁, hf]
    exact List.cons_ne_nil _ _
  renewed m a m' b h₁ hs hp hp' := by
    obtain ⟨o, hf⟩ := (Inv.of_run h₁).opening_file hp
    rcases hs.opening hp hf with ⟨hp'', -⟩ | hl
    · cases hp'.symm.trans hp''
    · rcases hl.returned with ⟨-, hf'⟩ | ⟨hp'', -⟩
      · exact hf'
      · cases hp'.symm.trans hp''
  fresh o hf hp := by
    have hF := (Inv.of_run h).fits
    rw [hf] at hF
    exact hF.fresh hp

/-- A file of one byte is opened; two bytes are appended, and a poll with room for one of them
follows a poll that returned `Pending`. -/
theorem tail_delivers_suffix_appended : ∃ tr s, Run Step (init (some [9])) tr s ∧
    opens tr = [1] ∧ bytes tr = [1] ∧ s.content = some [9, 1, 2] ∧ Tails (some [9]) tr s := by
  have opened :=
    (.nil : Run Step (init (some [9])) [] (init (some [9])))
      |>.snoc (.poll (.begin (n := 2) (b := ⟨[], 1, by decide⟩) rfl))
      |>.snoc (.poll (.matchFuture rfl rfl))
      |>.snoc (.poll (.spawnOpen rfl rfl))
      |>.snoc (.pool (.runOpen rfl rfl))
      |>.snoc (.pool (.completeOpen rfl))
      |>.snoc (.poll (.spawnSeek rfl rfl rfl))
      |>.snoc (.pool (.runSeek rfl rfl))
      |>.snoc (.pool (.completeSeek rfl))
      |>.snoc (.poll (.opened rfl rfl rfl))
  have awaiting := opened
      |>.snoc (.writer (.append rfl (List.cons_ne_nil 1 [2])))
      |>.snoc (.poll (.matchOpened rfl rfl))
      |>.snoc (.poll (.spawnRead rfl rfl rfl Nat.one_pos le_rfl))
      |>.snoc (.poll (.readExhausted rfl rfl rfl rfl))
      |>.snoc (.poll (.register rfl))
      |>.snoc (.poll (.returnPending rfl))
  have read := awaiting
      |>.snoc (.pool (.runRead (k := 1) rfl rfl rfl le_rfl nofun))
      |>.snoc (.pool (.completeRead rfl rfl))
      |>.snoc (.poll (.begin (n := 1) (b := ⟨[7], 2, by decide⟩) rfl))
      |>.snoc (.poll (.matchOpened rfl rfl))
      |>.snoc (.poll (.readReady rfl rfl rfl rfl rfl))
  exact ⟨_, _, read, rfl, rfl, rfl, tail_delivers_suffix read⟩

end CorustHackathon.TailingFile
