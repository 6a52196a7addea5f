/-
  The byte stream of a pipe.

  `Does` taken apart: `Acquires`, `Releases`, `Sleeps`, `Wakes` and `Runs` are the
  instructions of each kind, with their guards.  From these, the lock discipline
  of the pipe and its proof outline: what was sent is what the reads have taken,
  followed by what is in the ring, whatever the order of reads and writes.
-/
import OSLabs.Kernel.Pipe

namespace OSLabs.Pipe

open Monitor

variable {T : Type} {t : T} {q q' : Point} {m m' : Mem T} {k : Bool} {c : Chan}

/-! ## The instructions of each kind -/

section
variable [DecidableEq T]

inductive Acquires : Point → Point → Prop
  | write {src n} : Acquires (.write src n) (.writeLoop src n 0 0)
  | read {dst n} : Acquires (.read dst n) (.readLoop dst n)
  | close {w} : Acquires (.close w) (.closeEnd w)

inductive Releases : Point → Point → Prop
  | writeFail {src n i fresh} :
      Releases (.writeFail src n i fresh) (.writeReturn src n i (-1))
  | writeRelease {src n i} : Releases (.writeRelease src n i) (.writeReturn src n i i)
  | readFail {dst n} : Releases (.readFail dst n) (.readReturn dst n [] (-1))
  | readRelease {dst n got} :
      Releases (.readRelease dst n got) (.readReturn dst n got got.length)
  | closeUser : Releases (.closeRelease false) .user
  | closeFree : Releases (.closeRelease true) .closeFree

inductive Sleeps : Point → Chan → Point → Prop
  | write {src n i} : Sleeps (.writeSleep src n i) .nwrite (.writeLoop src n i 0)
  | read {dst n} : Sleeps (.readSleep dst n) .nread (.readLoop dst n)

inductive Wakes (m : Mem T) : Point → Chan → Point → Prop
  | writeFull {src} {n : ℤ} {i fresh : ℕ} : i < n → m.readopen = true → m.nwrite = m.nread + 512 →
      Wakes m (.writeLoop src n i fresh) .nread (.writeSleep src n i)
  | write {src n i} : Wakes m (.writeWakeup src n i) .nread (.writeRelease src n i)
  | read {dst n got} : Wakes m (.readWakeup dst n got) .nwrite (.readRelease dst n got)
  | closeWrite : Wakes m (.closeWakeup true) .nread .closeTest
  | closeRead : Wakes m (.closeWakeup false) .nwrite .closeTest

inductive Runs (t : T) (m : Mem T) (k : Bool) : Point → Mem T → Point → Prop
  | write {src n} : 0 < m.fds t true → Runs t m k .user m (.write src n)
  | read {dst n} : 0 < m.fds t false → Runs t m k .user m (.read dst n)
  | dup {w} : 0 < m.fds t w → Runs t m k .user (m.dup t w) .user
  | fork {t'} : (∀ w, m.fds t' w = 0) → Runs t m k .user (m.fork t t') .user
  | close {w} : 0 < m.fds t w → m.ref w = 1 → Runs t m k .user (m.drop t w) (.close w)
  | drop {w} : 0 < m.fds t w → m.ref w ≠ 1 → Runs t m k .user (m.drop t w) .user
  | writeFail {src} {n : ℤ} {i fresh : ℕ} : i < n → m.readopen = false ∨ k = true →
      Runs t m k (.writeLoop src n i fresh) m (.writeFail src n i fresh)
  | put {src} {n : ℤ} {i fresh : ℕ} {ch} : i < n → m.readopen = true → m.nwrite ≠ m.nread + 512 →
      src i = some ch →
      Runs t m k (.writeLoop src n i fresh) (m.put t ch) (.writeLoop src n (i + 1) (fresh + 1))
  | writeStop {src} {n : ℤ} {i fresh : ℕ} : n ≤ i ∨ src i = none →
      Runs t m k (.writeLoop src n i fresh) m (.writeWakeup src n i)
  | wrote {src n i r} : Runs t m k (.writeReturn src n i r) (m.wrote t (bytes src i)) .user
  | readFail {dst n} : k = true → Runs t m k (.readLoop dst n) m (.readFail dst n)
  | readSleep {dst n} : m.nread = m.nwrite → m.writeopen = true →
      Runs t m k (.readLoop dst n) m (.readSleep dst n)
  | readCopy {dst n} : m.nread ≠ m.nwrite ∨ m.writeopen = false →
      Runs t m k (.readLoop dst n) m (.readCopy dst n [])
  | take {dst} {n : ℤ} {got : List UInt8} : got.length < n → m.nread ≠ m.nwrite →
      dst got.length = true →
      Runs t m k (.readCopy dst n got) m.take (.readCopy dst n (got ++ [m.first]))
  | lose {dst} {n : ℤ} {got : List UInt8} : got.length < n → m.nread ≠ m.nwrite →
      dst got.length = false →
      Runs t m k (.readCopy dst n got) (m.take.ended ⟨t, got, some m.first⟩)
        (.readWakeup dst n got)
  | readStop {dst} {n : ℤ} {got : List UInt8} : n ≤ got.length ∨ m.nread = m.nwrite →
      Runs t m k (.readCopy dst n got) (m.ended ⟨t, got, none⟩) (.readWakeup dst n got)
  | readReturn {dst n got r} : Runs t m k (.readReturn dst n got r) m .user
  | closeEnd {w} : Runs t m k (.closeEnd w) (m.setOpen w false) (.closeWakeup w)
  | closeBoth : m.readopen = false → m.writeopen = false →
      Runs t m k .closeTest m (.closeRelease true)
  | closeOne : m.readopen = true ∨ m.writeopen = true →
      Runs t m k .closeTest m (.closeRelease false)
  | closeFree : Runs t m k .closeFree m.setFreed .user

theorem Does.acquires (h : Does t q m k (.acquire q')) : Acquires q q' := by
  cases h with
  | code h =>
    cases q with
    | write src n => cases h; exact .write
    | read dst n => cases h; exact .read
    | close w => cases h; exact .close
    | _ =>
      unfold exec at h
      dsimp only at h
      repeat' split at h
      all_goals cases h

theorem Does.releases (h : Does t q m k (.release q')) : Releases q q' := by
  cases h with
  | code h =>
    cases q with
    | writeFail src n i fresh => cases h; exact .writeFail
    | writeRelease src n i => cases h; exact .writeRelease
    | readFail dst n => cases h; exact .readFail
    | readRelease dst n got => cases h; exact .readRelease
    | closeRelease both =>
      cases h
      cases both with
      | true => exact .closeFree
      | false => exact .closeUser
    | _ =>
      unfold exec at h
      dsimp only at h
      repeat' split at h
      all_goals cases h

theorem Does.sleeps (h : Does t q m k (.sleep c q')) : Sleeps q c q' := by
  cases h with
  | code h =>
    cases q with
    | writeSleep src n i => cases h; exact .write
    | readSleep dst n => cases h; exact .read
    | _ =>
      unfold exec at h
      dsimp only at h
      repeat' split at h
      all_goals cases h

theorem Does.wakes (h : Does t q m k (.wakeup c q')) : Wakes m q c q' := by
  cases h with
  | code h =>
    cases q with
    | writeLoop src n i fresh =>
      simp only [exec] at h
      split_ifs at h with hi hopen hfull
      · cases h
      · cases h; exact .writeFull hi (by simpa using (not_or.1 hopen).1) hfull
      · split at h <;> cases h
      · cases h
    | writeWakeup src n i => cases h; exact .write
    | readWakeup dst n got => cases h; exact .read
    | closeWakeup w =>
      cases h
      cases w with
      | true => exact .closeWrite
      | false => exact .closeRead
    | _ =>
      unfold exec at h
      dsimp only at h
      repeat' split at h
      all_goals cases h

theorem Does.runs (h : Does t q m k (.run m' q')) : Runs t m k q m' q' := by
  cases h with
  | write hf => exact .write hf
  | read hf => exact .read hf
  | dup hf => exact .dup hf
  | fork hf => exact .fork hf
  | @close _ _ w hf =>
    by_cases hr : m.ref w = 1
    · rw [if_pos hr]; exact .close hf hr
    · rw [if_neg hr]; exact .drop hf hr
  | code h =>
    cases q with
    | writeLoop src n i fresh =>
      simp only [exec] at h
      split_ifs at h with hi hopen hfull
      · cases h; exact .writeFail hi hopen
      · cases h
      · split at h
        · rename_i ch hch
          cases h; exact .put hi (by simpa using (not_or.1 hopen).1) hfull hch
        · rename_i hsrc
          cases h; exact .writeStop (.inr hsrc)
      · cases h; exact .writeStop (.inl (not_lt.1 hi))
    | writeReturn src n i r => cases h; exact .wrote
    | readLoop dst n =>
      simp only [exec] at h
      split_ifs at h with hempty hk
      · cases h; exact .readFail hk
      · cases h; exact .readSleep hempty.1 hempty.2
      · cases h; exact .readCopy ((not_and_or.1 hempty).imp_right Bool.eq_false_of_not_eq_true)
    | readCopy dst n got =>
      simp only [exec] at h
      split_ifs at h with hi hdst
      · cases h; exact .take hi.1 hi.2 hdst
      · cases h; exact .lose hi.1 hi.2 (by simpa using hdst)
      · cases h; exact .readStop ((not_and_or.1 hi).imp not_lt.1 not_not.1)
    | readReturn dst n got r => cases h; exact .readReturn
    | closeEnd w => cases h; exact .closeEnd
    | closeTest =>
      cases h
      by_cases hb : m.readopen = false ∧ m.writeopen = false
      · rw [decide_eq_true hb]; exact .closeBoth hb.1 hb.2
      · rw [decide_eq_false hb]
        exact .closeOne
          ((not_and_or.1 hb).imp Bool.eq_true_of_not_eq_false Bool.eq_true_of_not_eq_false)
    | closeFree => cases h; exact .closeFree
    | _ => cases h

/-! ## The lock -/

/-- The lock of the pipe is held at these points. -/
def Point.held : Point → Bool
  | .user => false
  | .write _ _ => false
  | .writeReturn _ _ _ _ => false
  | .read _ _ => false
  | .readReturn _ _ _ _ => false
  | .close _ => false
  | .closeFree => false
  | _ => true

theorem Runs.held (h : Runs t m k q m' q') : q'.held = q.held := by
  cases h <;> rfl

def discipline : Discipline (code (T := T)) where
  held := Point.held
  acquire h := by cases Does.acquires h <;> exact ⟨rfl, rfl⟩
  release h := by cases Does.releases h <;> exact ⟨rfl, rfl⟩
  run h := (Does.runs h).held
  sleep h := by cases Does.sleeps h <;> exact ⟨rfl, rfl⟩
  wakeup h := by cases Does.wakes h <;> rfl

theorem Starts.start {p : T} {σ : PState T} (h : Starts p σ) : discipline.Start σ :=
  ⟨h.owner, h.ctx, fun t => by rw [h.pc]; rfl⟩

end

/-! ## The ring -/

theorem items_put (h : m.items.length ≤ 512) (hfull : m.nwrite ≠ m.nread + 512) (ch : UInt8) :
    (m.put t ch).items = m.items ++ [ch] := by
  refine Ring.items_write m.nread _ (by decide) (by decide) _ _ ?_
  have hne : Ring.count m.nread m.nwrite ≠ 512 := fun he => hfull ((Ring.eq_add_iff _ _).2 he)
  have hle : Ring.count m.nread m.nwrite ≤ 512 := by simpa [Mem.items] using h
  omega

theorem items_take (h : m.nread ≠ m.nwrite) : m.items = m.first :: m.take.items :=
  Ring.items_read _ _ (by decide) _ fun h0 => h ((Ring.count_eq_zero _ _).1 h0)

theorem items_eq_nil : m.items = [] ↔ m.nread = m.nwrite := by
  rw [← List.length_eq_zero_iff, Mem.items, Ring.items_length, Ring.count_eq_zero]

theorem items_length_eq : m.items.length = 512 ↔ m.nwrite = m.nread + 512 := by
  rw [Mem.items, Ring.items_length, Ring.eq_add_iff]; rfl

/-! ## The proof outline -/

/-- What the lock protects: the other fields are blank. -/
def Mem.guarded (m : Mem T) : Mem T :=
  { m with
    freed := false
    ref := fun _ => 0
    fds := fun _ _ => 0
    writes := fun _ => [] }

/-- What a read has copied out before it ends. -/
def Point.inflight : Point → List UInt8
  | .readCopy _ _ got => got
  | _ => []

/-- What was sent has been taken by the reads, in order, or is in the ring. -/
structure Stream (inflight : List UInt8) (m : Mem T) : Prop where
  sent : m.sent.map Prod.snd = m.reads.flatMap Read.bytes ++ inflight ++ m.items
  bound : m.items.length ≤ 512
  nwrite : m.nwrite = UInt32.ofNat m.sent.length

/-- What a process knows about the pipe at a point. -/
def Point.knows (m : Mem T) : Point → Prop
  | .writeSleep _ _ _ => m.readopen = true ∧ m.nwrite = m.nread + 512
  | .readSleep _ _ => m.nread = m.nwrite ∧ m.writeopen = true
  | .readCopy _ _ got => got = [] → m.nread ≠ m.nwrite ∨ m.writeopen = false
  | .readWakeup dst n got =>
    got = [] → 0 < n → dst 0 = true → m.nread = m.nwrite ∧ m.writeopen = false
  | .readRelease dst n got =>
    got = [] → 0 < n → dst 0 = true → m.nread = m.nwrite ∧ m.writeopen = false
  | .closeRelease both => both = true ∨ m.readopen = true ∨ m.writeopen = true
  | _ => True

def Point.asserts (q : Point) (m : Mem T) : Prop := Stream q.inflight m ∧ q.knows m

theorem Stream.put (h : Stream [] m) (hfull : m.nwrite ≠ m.nread + 512) (ch : UInt8) :
    Stream [] (m.put t ch) := by
  constructor
  · rw [items_put h.bound hfull]
    have := h.sent
    simp only [Mem.put, List.map_append, List.map_cons, List.map_nil, this, List.append_assoc]
  · rw [items_put h.bound hfull, List.length_append, List.length_singleton]
    have hne : m.items.length ≠ 512 := fun he => hfull (items_length_eq.1 he)
    have := h.bound
    omega
  · simp only [Mem.put, List.length_append, List.length_singleton, h.nwrite, UInt32.ofNat_add]
    rfl

theorem Stream.take {got : List UInt8} (h : Stream got m) (hne : m.nread ≠ m.nwrite) :
    Stream (got ++ [m.first]) m.take := by
  have hitems := items_take hne
  constructor
  · have := h.sent
    rw [hitems] at this
    simpa [Mem.take] using this
  · have := h.bound
    rw [hitems, List.length_cons] at this
    omega
  · exact h.nwrite

theorem Stream.ended {got : List UInt8} {lost : Option UInt8}
    (h : Stream (got ++ lost.toList) m) : Stream [] (m.ended ⟨t, got, lost⟩) := by
  constructor
  · have := h.sent
    simpa [Mem.ended, Mem.items, Read.bytes] using this
  · exact h.bound
  · exact h.nwrite

/-- The index of the readers counts what was taken. -/
theorem Stream.nread {got : List UInt8} (h : Stream got m) :
    m.nread = UInt32.ofNat (m.reads.flatMap Read.bytes ++ got).length := by
  have hlen := congrArg List.length h.sent
  rw [List.length_map, List.length_append] at hlen
  have hitems : m.nwrite - m.nread = UInt32.ofNat m.items.length := by
    rw [Mem.items, Ring.items_length, Ring.count, UInt32.ofNat_toNat]
  have hw := h.nwrite
  rw [hlen, UInt32.ofNat_add, ← hitems] at hw
  grind

variable [DecidableEq T]

/-- Of the instructions without the lock, none changes what it protects. -/
theorem Runs.frame (h : Runs t m k q m' q') (hq : q.held = false) : m'.guarded = m.guarded := by
  cases h with
  | put => cases hq
  | take => cases hq
  | lose => cases hq
  | readStop => cases hq
  | closeEnd => cases hq
  | _ => rfl

/-- **A run under the lock keeps the proof outline.** -/
theorem Runs.asserts (h : Runs t m k q m' q') (hq : q.held = true) (ha : q.asserts m) :
    q'.asserts m' := by
  obtain ⟨hs, hk⟩ := ha
  cases h with
  | put hi hopen hfull hsrc => exact ⟨hs.put hfull _, trivial⟩
  | writeFail => exact ⟨hs, trivial⟩
  | writeStop => exact ⟨hs, trivial⟩
  | readFail => exact ⟨hs, trivial⟩
  | readSleep hempty hopen => exact ⟨hs, hempty, hopen⟩
  | readCopy hne => exact ⟨hs, fun _ => hne⟩
  | @take dst n got hi hne hdst =>
    exact ⟨hs.take hne, fun hnil => absurd hnil (by simp)⟩
  | @lose dst n got hi hne hdst =>
    refine ⟨Stream.ended (hs.take hne), fun hnil _ hdst₀ => ?_⟩
    subst hnil
    exact absurd (hdst.symm.trans hdst₀) (by simp)
  | @readStop dst n got hstop =>
    refine ⟨Stream.ended (by simpa [Point.inflight] using hs), fun hnil hn _ => ?_⟩
    subst hnil
    have hempty : m.nread = m.nwrite := hstop.resolve_left (by simpa using hn)
    exact ⟨hempty, (hk rfl).resolve_left (not_not.2 hempty)⟩
  | @closeEnd w => cases w <;> exact ⟨⟨hs.sent, hs.bound, hs.nwrite⟩, trivial⟩
  | closeBoth => exact ⟨hs, .inl rfl⟩
  | closeOne hone => exact ⟨hs, .inr hone⟩
  | _ => cases hq

def outline : Outline (discipline (T := T)) (Mem T) where
  view := Mem.guarded
  inv := Stream []
  asserts _ := Point.asserts
  frame h := (Does.runs h).frame
  acquire h hs := by cases Does.acquires h <;> exact ⟨hs, trivial⟩
  release h ha := by cases Does.releases h <;> exact ha.1
  run h hq ha := by
    have hview : ∀ q (m : Mem T), Point.asserts q m.guarded ↔ Point.asserts q m :=
      fun q m => by
        constructor
        · rintro ⟨h₁, h₂⟩; exact ⟨⟨h₁.sent, h₁.bound, h₁.nwrite⟩, by cases q <;> exact h₂⟩
        · rintro ⟨h₁, h₂⟩; exact ⟨⟨h₁.sent, h₁.bound, h₁.nwrite⟩, by cases q <;> exact h₂⟩
    exact (hview _ _).2 ((Does.runs h).asserts hq ((hview _ _).1 ha))
  sleep h ha := by cases Does.sleeps h <;> exact ⟨ha.1, fun r hr => ⟨hr, trivial⟩⟩
  wakeup h hq ha := by
    cases Does.wakes h with
    | writeFull hi hopen hfull => exact ⟨ha.1, hopen, hfull⟩
    | write => exact ⟨ha.1, trivial⟩
    | read => exact ha
    | closeWrite => exact ⟨ha.1, trivial⟩
    | closeRead => exact ⟨ha.1, trivial⟩

variable {p : T} {σ σ' : PState T} {ok : PState T → T → Prop}

theorem Starts.inv (h : Starts p σ) : discipline.Start σ ∧ outline.inv (outline.view σ.mem) := by
  obtain ⟨data, hm⟩ := h.mem
  refine ⟨h.start, ?_⟩
  rw [hm]
  have hnil : (Mem.opened p data).items = [] := items_eq_nil.2 rfl
  exact ⟨hnil.symm, by rw [show (outline.view (Mem.opened p data)).items = _ from hnil]; simp, rfl⟩

theorem inv_of_reach (h : Reach code (Starts p) ok σ) : discipline.Inv σ :=
  discipline.inv_of_reach (fun _ hi => hi.start) h

theorem holds_of_reach (h : Reach code (Starts p) ok σ) : outline.Holds σ :=
  Outline.holds_of_reach (fun _ hi => hi.inv) h

/-- The bytes that the read has copied out that holds the lock. -/
def inflight (σ : PState T) : List UInt8 :=
  match σ.owner with
  | some t => (σ.pc t).inflight
  | none => []

theorem stream_of_reach (h : Reach code (Starts p) ok σ) : Stream (inflight σ) σ.mem := by
  have hh := holds_of_reach h
  unfold inflight
  cases ho : σ.owner with
  | none => exact ⟨(hh.free ho).sent, (hh.free ho).bound, (hh.free ho).nwrite⟩
  | some t => exact ⟨(hh.owner t ho).1.sent, (hh.owner t ho).1.bound, (hh.owner t ho).1.nwrite⟩

/-! ## The writers -/

/-- The bytes that a process has put into the pipe. -/
def Mem.sentBy (m : Mem T) (t : T) : List UInt8 :=
  (m.sent.filter fun x => x.1 = t).map Prod.snd

/-- The bytes that the write in progress has put. -/
def Point.written : Point → List UInt8
  | .writeLoop src _ i _ => bytes src i
  | .writeFail src _ i _ => bytes src i
  | .writeSleep src _ i => bytes src i
  | .writeWakeup src _ i => bytes src i
  | .writeRelease src _ i => bytes src i
  | .writeReturn src _ i _ => bytes src i
  | _ => []

theorem bytes_succ {src : ℕ → Option UInt8} {i : ℕ} {ch : UInt8} (h : src i = some ch) :
    bytes src (i + 1) = bytes src i ++ [ch] := by
  simp [bytes, List.range_succ, List.filterMap_append, h]

/-- What a process has sent is what its writes have put, one after the other. -/
def Written (σ : PState T) : Prop :=
  ∀ t, σ.mem.sentBy t = (σ.mem.writes t).flatten ++ (σ.pc t).written

theorem Runs.written (h : Runs t m k q m' q') :
    (m.sentBy t = (m.writes t).flatten ++ q.written →
      m'.sentBy t = (m'.writes t).flatten ++ q'.written) ∧
    ∀ t' ≠ t, m'.sentBy t' = m.sentBy t' ∧ m'.writes t' = m.writes t' := by
  cases h with
  | @put src n i fresh ch hi hopen hfull hsrc =>
    constructor
    · intro hw
      simp only [Point.written, bytes_succ hsrc, Mem.sentBy, Mem.put] at hw ⊢
      simp [List.filter_append, hw]
    · intro t' ht'
      simp [Mem.sentBy, Mem.put, Ne.symm ht']
  | @wrote src n i r =>
    constructor
    · intro hw
      simpa [Mem.sentBy, Mem.wrote, Point.written] using hw
    · intro t' ht'
      simp [Mem.sentBy, Mem.wrote, ht']
  | @closeEnd w => cases w <;> exact ⟨id, fun _ _ => ⟨rfl, rfl⟩⟩
  | write hf => exact ⟨id, fun _ _ => ⟨rfl, rfl⟩⟩
  | _ => exact ⟨id, fun _ _ => ⟨rfl, rfl⟩⟩

theorem Acquires.written (h : Acquires q q') : q'.written = q.written := by cases h <;> rfl

theorem Releases.written (h : Releases q q') : q'.written = q.written := by cases h <;> rfl

theorem Sleeps.written (h : Sleeps q c q') : q'.written = q.written := by cases h; all_goals rfl

omit [DecidableEq T] in
theorem Wakes.written (h : Wakes m q c q') : q'.written = q.written := by cases h <;> rfl

/-- **A step keeps what the writers have sent.** -/
theorem Written.step (h : Written σ) {a : Option T} (hs : Step code σ a σ') : Written σ' := by
  -- the thread moves on, and puts nothing
  have hmove : ∀ {t : T} {q : Point}, σ'.mem = σ.mem → σ'.pc = Function.update σ.pc t q →
      q.written = (σ.pc t).written → Written σ' := by
    intro t q hm hpc hw t'
    rw [hm, hpc, h t']
    by_cases htt : t' = t
    · subst htt; rw [Function.update_self, hw]
    · rw [Function.update_of_ne htt]
  cases hs with
  | acquire _ hi _ => exact hmove rfl rfl (Does.acquires hi).written
  | release _ hi _ => exact hmove rfl rfl (Does.releases hi).written
  | sleep _ hi _ => exact hmove rfl rfl (Does.sleeps hi).written
  | wakeup _ hi => exact hmove rfl rfl (Does.wakes hi).written
  | resume _ _ => exact h
  | kill => exact h
  | @run t m q _ hi =>
    obtain ⟨hself, hother⟩ := (Does.runs hi).written
    intro t'
    by_cases htt : t' = t
    · subst htt
      simpa using hself (h t')
    · obtain ⟨hsent, hwrites⟩ := hother t' htt
      simpa [htt, hsent, hwrites] using h t'

theorem written_of_reach (h : Reach code (Starts p) ok σ) : Written σ := by
  refine h.invariant (fun σ hi t => ?_) fun _ _ _ hw hs _ => hw.step hs
  obtain ⟨data, hm⟩ := hi.mem
  rw [hm, hi.pc]; rfl

/-- **A pipe is a byte stream.**  Whatever the order in which processes read and
    write it: what was sent is what the reads have taken, in their order, followed
    by what is in the ring, at most 512 bytes; and what a process has sent is what
    its writes have put, in their order. -/
theorem stream (h : Reach code (Starts p) ok σ) :
    σ.mem.sent.map Prod.snd =
        σ.mem.reads.flatMap Read.bytes ++ inflight σ ++ σ.mem.items ∧
      σ.mem.items.length ≤ 512 ∧
      ∀ t, σ.mem.sentBy t = (σ.mem.writes t).flatten ++ (σ.pc t).written :=
  ⟨(stream_of_reach h).sent, (stream_of_reach h).bound, written_of_reach h⟩

/-- The parent forks and writes two bytes, of which the child reads one. -/
def traffic : List (Event Proc (Act Proc)) :=
  [.go .parent (.fork .child), .go .parent (.write (fun i => some (UInt8.ofNat i)) 2),
    .go .parent .none, .go .parent .none, .go .parent .none, .go .parent .none,
    .go .parent .none, .go .parent .none, .go .child (.read (fun _ => true) 1),
    .go .child .none, .go .child .none, .go .child .none]

theorem stream_traffic : ∃ σ : PState Proc, Reach code (Starts .parent) (fun _ _ => True) σ ∧
    (inflight σ, σ.mem.items) = ([0], [1]) ∧
    σ.mem.sent.map Prod.snd =
        σ.mem.reads.flatMap Read.bytes ++ inflight σ ++ σ.mem.items ∧
      σ.mem.items.length ≤ 512 ∧
      ∀ t, σ.mem.sentBy t = (σ.mem.writes t).flatten ++ (σ.pc t).written := by
  have hplay : (play pick (fun _ _ => true) traffic (start Proc.parent)).map
      (fun σ => (inflight σ, σ.mem.items)) = some ([0], [1]) := by decide +kernel
  obtain ⟨σ, hr, hf⟩ := reach_play _ (fun _ _ _ => trivial) hplay
  exact ⟨σ, hr, hf, stream hr⟩

/-! ## No lost wakeups -/

/-- No write is cut short: none that returns -1 has put bytes since its last
    wakeup. -/
def Uncut (σ : PState T) (t : T) : Prop :=
  ∀ src n i fresh, σ.pc t = .writeFail src n i fresh → fresh = 0

/-- Why a process sleeps on a channel. -/
def Blocked (m : Mem T) : Chan → Prop
  | .nread => m.nread = m.nwrite ∧ m.writeopen = true
  | .nwrite => m.nwrite = m.nread + 512 ∧ m.readopen = true

/-- The points at which a process still has to wake up a channel. -/
def Point.owes : Point → Chan → Prop
  | .writeLoop _ _ _ fresh, .nread => fresh ≠ 0
  | .writeFail _ _ _ fresh, .nread => fresh ≠ 0
  | .writeWakeup _ _ _, .nread => True
  | .closeWakeup true, .nread => True
  | .readCopy _ _ got, .nwrite => got ≠ []
  | .readWakeup _ _ _, .nwrite => True
  | .closeWakeup false, .nwrite => True
  | _, _ => False

theorem Runs.blocked (h : Runs t m k q m' q') :
    (Blocked m c → Blocked m' c ∨ q'.owes c) ∧ (q.owes c → q'.owes c) := by
  cases h with
  | put hi hopen hfull hsrc =>
    cases c with
    | nread => exact ⟨fun _ => .inr (Nat.succ_ne_zero _), fun _ => Nat.succ_ne_zero _⟩
    | nwrite => exact ⟨fun hb => absurd hb.1 hfull, fun ho => ho⟩
  | writeFail => cases c <;> exact ⟨.inl, fun ho => ho⟩
  | writeStop =>
    cases c with
    | nread => exact ⟨.inl, fun _ => trivial⟩
    | nwrite => exact ⟨.inl, fun ho => ho⟩
  | take hi hne hdst =>
    cases c with
    | nread => exact ⟨fun hb => absurd hb.1 hne, fun ho => ho⟩
    | nwrite => exact ⟨fun _ => .inr (by simp [Point.owes]), fun _ => by simp [Point.owes]⟩
  | lose hi hne hdst =>
    cases c with
    | nread => exact ⟨fun hb => absurd hb.1 hne, fun ho => ho⟩
    | nwrite => exact ⟨fun _ => .inr trivial, fun _ => trivial⟩
  | readStop =>
    cases c with
    | nread => exact ⟨.inl, fun ho => ho⟩
    | nwrite => exact ⟨.inl, fun _ => trivial⟩
  | @closeEnd w =>
    cases w <;> cases c
    · exact ⟨.inl, fun ho => ho⟩
    · exact ⟨fun _ => .inr trivial, fun ho => ho.elim⟩
    · exact ⟨fun _ => .inr trivial, fun ho => ho.elim⟩
    · exact ⟨.inl, fun ho => ho⟩
  | _ => exact ⟨.inl, fun ho => ho.elim⟩

theorem Releases.owes (h : Releases q q') (hq : ∀ src n i fresh, q = .writeFail src n i fresh →
    fresh = 0) : ¬ q.owes c := by
  cases h with
  | writeFail =>
    cases c with
    | nread => exact fun ho => ho (hq _ _ _ _ rfl)
    | nwrite => exact id
  | _ => exact id

omit [DecidableEq T] in
theorem Wakes.owes {c' : Chan} (h : Wakes m q c q') (ho : q.owes c') : c' = c := by
  cases h <;> cases c' <;> first | rfl | exact ho.elim

def sleepers :
    Sleepers (discipline (T := T)) (fun σ => discipline.Inv σ ∧ outline.Holds σ) Uncut where
  blocked _ c m := Blocked m c
  owes := Point.owes
  held {q c} ho := by cases q <;> cases c <;> first | rfl | exact ho.elim
  release hok hi c := (Does.releases hi).owes hok
  run _ _ hi _ c _ := by
    obtain ⟨hb, ho⟩ := (Does.runs hi).blocked (c := c)
    exact ⟨hb, fun h => .inl (ho h)⟩
  sleep {σ t k q} hI hc hi := by
    have hs := Does.sleeps hi
    have hk := (hI.2.owner t ((hI.1.owner t).2 ⟨hc, discipline.sleep hi |>.1⟩)).2
    generalize σ.pc t = q₀ at hs hk
    cases hs with
    | write => exact ⟨⟨hk.2, hk.1⟩, fun c => by cases c <;> exact id⟩
    | read => exact ⟨hk, fun c => by cases c <;> exact id⟩
  wakeup hi c' ho := .inl ((Does.wakes hi).owes ho)

/-- **No wakeup of a pipe is lost**, if no write is cut short: while the lock is
    free, a process only sleeps for bytes if there are none and the write end is
    open, and for space if there is none and the read end is open. -/
theorem sleeps_blocked (h : Reach code (Starts p) Uncut σ) (hfree : σ.owner = none)
    (ht : σ.ctx t = .asleep c) : Blocked σ.mem c :=
  (sleepers.blocked_or_owed (fun _ hi => hi.start)
    (fun _ hr => ⟨inv_of_reach hr, holds_of_reach hr⟩) h).blocked (inv_of_reach h) hfree ht

/-- The parent forks, and the child goes to sleep on the empty pipe. -/
def waiting : List (Event Proc (Act Proc)) :=
  [.go .parent (.fork .child), .go .child (.read (fun _ => true) 1), .go .child .none,
    .go .child .none, .go .child .none]

/-- No write fails. -/
def unfailing {T : Type} (σ : PState T) (t : T) : Bool :=
  match σ.pc t with
  | .writeFail _ _ _ _ => false
  | _ => true

omit [DecidableEq T] in
theorem unfailing_uncut (h : unfailing σ t = true) : Uncut σ t := by
  intro src n i fresh hq
  rw [unfailing, hq] at h; cases h

theorem sleeps_blocked_waiting : ∃ σ : PState Proc, Reach code (Starts .parent) Uncut σ ∧
    (σ.owner = none ∧ σ.ctx .child = .asleep .nread) ∧ Blocked σ.mem .nread := by
  have hplay : (play pick unfailing waiting (start Proc.parent)).map
      (fun σ => (σ.owner, σ.ctx .child)) = some (none, .asleep .nread) := by decide +kernel
  obtain ⟨σ, hr, hf⟩ := reach_play _ (fun _ _ hu => unfailing_uncut hu) hplay
  obtain ⟨ho, ht⟩ := Prod.mk.inj hf
  exact ⟨σ, hr, ⟨ho, ht⟩, sleeps_blocked hr ho ht⟩

/-- Then the parent writes two bytes, and is killed behind the first one. -/
def killing : List (Event Proc (Act Proc)) :=
  waiting ++ [.go .parent (.write (fun i => some (UInt8.ofNat i)) 2), .go .parent .none,
    .go .parent .none, .kill .parent, .go .parent .none, .go .parent .none, .go .parent .none]

/-- A write that is cut short loses its wakeup: the reader sleeps, with a byte in
    the pipe. -/
theorem lost_wakeup : ∃ σ : PState Proc, Reach code (Starts .parent) (fun _ _ => True) σ ∧
    σ.owner = none ∧ σ.ctx .child = .asleep .nread ∧ σ.mem.items = [0] := by
  have hplay : (play pick (fun _ _ => true) killing (start Proc.parent)).map
      (fun σ => (σ.owner, σ.ctx .child, σ.mem.items)) = some (none, .asleep .nread, [0]) := by
    decide +kernel
  obtain ⟨σ, hr, hf⟩ := reach_play _ (fun _ _ _ => trivial) hplay
  obtain ⟨ho, hf⟩ := Prod.mk.inj hf
  exact ⟨σ, hr, ho, Prod.mk.inj hf⟩

end OSLabs.Pipe
