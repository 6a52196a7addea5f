/-
  The ends of a pipe.

  The reference count of an end is the number of descriptors for it, over all
  processes.  An end is open as long as there is one, and the process that drops
  the last one closes it.  So a pipe is freed once, by the process that closes its
  second end, and no process is in pipe.c any more then (`freed_once`); and a read
  that reports the end of the file has left nothing behind (`end_of_file`).
  `call_results` is what the results of reads and writes mean.
-/
import OSLabs.Kernel.PipeStream
import OSLabs.Lib.Tally

namespace OSLabs.Pipe

open Monitor

variable {T : Type} {t p : T} {q q' : Point} {m m' : Mem T} {k w : Bool}
  {σ σ' : PState T} {ok : PState T → T → Prop}

/-! ## Where a process is -/

/-- The process is in a system call on a descriptor of an end. -/
def Point.uses : Point → Bool → Prop
  | .write _ _, w => w = true
  | .writeLoop _ _ _ _, w => w = true
  | .writeFail _ _ _ _, w => w = true
  | .writeSleep _ _ _, w => w = true
  | .writeWakeup _ _ _, w => w = true
  | .writeRelease _ _ _, w => w = true
  | .read _ _, w => w = false
  | .readLoop _ _, w => w = false
  | .readFail _ _, w => w = false
  | .readSleep _ _, w => w = false
  | .readCopy _ _ _, w => w = false
  | .readWakeup _ _ _, w => w = false
  | .readRelease _ _ _, w => w = false
  | _, _ => False

/-- The process is about to close an end. -/
def Point.closes : Point → Bool → Prop
  | .close w', w => w' = w
  | .closeEnd w', w => w' = w
  | _, _ => False

/-- The process is about to free the pipe. -/
def Point.frees (m : Mem T) : Point → Prop
  | .closeWakeup _ => m.readopen = false ∧ m.writeopen = false
  | .closeTest => m.readopen = false ∧ m.writeopen = false
  | .closeRelease both => both = true
  | .closeFree => True
  | _ => False

/-- The process accesses the pipe, or frees it. -/
def Point.touches : Point → Bool
  | .user => false
  | .writeReturn _ _ _ _ => false
  | .readReturn _ _ _ _ => false
  | _ => true

/-- Both ends are closed. -/
def Mem.closed (m : Mem T) : Prop := m.readopen = false ∧ m.writeopen = false

/-- **The invariant of the ends.** -/
structure Ends [Fintype T] (m : Mem T) (pc : T → Point) : Prop where
  ref : ∀ w, m.ref w = ∑ t, m.fds t w
  opened : ∀ w, 0 < m.ref w → m.isOpen w = true
  uses : ∀ t w, (pc t).uses w → 0 < m.fds t w
  closes : ∀ t w, (pc t).closes w → m.ref w = 0 ∧ m.isOpen w = true
  closes_unique : ∀ t t' w, (pc t).closes w → (pc t').closes w → t = t'
  closing : ∀ w, m.ref w = 0 → m.isOpen w = true → ∃ t, (pc t).closes w
  frees : ∀ t, (pc t).frees m → m.freed = false ∧ m.closed
  frees_unique : ∀ t t', (pc t).frees m → (pc t').frees m → t = t'
  freeing : m.closed → m.freed = false → ∃ t, (pc t).frees m
  freed : m.freed = true → m.closed

theorem isOpen_eq_false (h : m.closed) (w : Bool) : m.isOpen w = false := by
  cases w
  · exact h.1
  · exact h.2

/-! ## The descriptors -/

section
variable [Fintype T]

/-- A process has no more descriptors than there are. -/
theorem fds_le_ref (h : ∀ w, m.ref w = ∑ t, m.fds t w) (t : T) (w : Bool) :
    m.fds t w ≤ m.ref w := by
  rw [h w]
  exact Tally.le_sum (fun t => m.fds t w) t

variable [DecidableEq T]

/-- One process has other descriptors. -/
theorem sum_update (f : T → Bool → ℕ) (t : T) (g : Bool → ℕ) (w : Bool) :
    ∑ t', Function.update f t g t' w + f t w = ∑ t', f t' w + g w := by
  have := Tally.sum_move (fun t' => f t' w) (fun t' => Function.update f t g t' w) t
    fun t' ht' => by rw [Function.update_of_ne ht']
  simpa using this

theorem sum_dup (h : ∀ w, m.ref w = ∑ t, m.fds t w) (w w' : Bool) :
    (m.dup t w).ref w' = ∑ t', (m.dup t w).fds t' w' := by
  have hsum := sum_update m.fds t (Function.update (m.fds t) w (m.fds t w + 1)) w'
  have := h w'
  simp only [Mem.dup]
  by_cases hw : w' = w
  · subst hw; simp only [Function.update_self] at *; omega
  · simp only [Function.update_of_ne hw] at *; omega

theorem sum_drop (h : ∀ w, m.ref w = ∑ t, m.fds t w) (hf : 0 < m.fds t w) (w' : Bool) :
    (m.drop t w).ref w' = ∑ t', (m.drop t w).fds t' w' := by
  have hsum := sum_update m.fds t (Function.update (m.fds t) w (m.fds t w - 1)) w'
  have := h w'
  simp only [Mem.drop]
  by_cases hw : w' = w
  · subst hw; simp only [Function.update_self] at *; omega
  · simp only [Function.update_of_ne hw] at *; omega

theorem sum_fork (h : ∀ w, m.ref w = ∑ t, m.fds t w) {t' : T} (hf : ∀ w, m.fds t' w = 0)
    (w : Bool) : (m.fork t t').ref w = ∑ i, (m.fork t t').fds i w := by
  have hsum := sum_update m.fds t' (m.fds t) w
  rw [hf w] at hsum
  simp only [Mem.fork, h w]
  omega

end

/-! ## The invariant is kept -/

theorem frees_congr (hr : m'.readopen = m.readopen) (hw : m'.writeopen = m.writeopen)
    (q : Point) : q.frees m' ↔ q.frees m := by
  cases q <;> simp only [Point.frees, hr, hw]

theorem isOpen_congr (hr : m'.readopen = m.readopen) (hw : m'.writeopen = m.writeopen)
    (w : Bool) : m'.isOpen w = m.isOpen w := by
  cases w
  · exact hr
  · exact hw

theorem closed_congr (hr : m'.readopen = m.readopen) (hw : m'.writeopen = m.writeopen) :
    m'.closed ↔ m.closed := by
  simp only [Mem.closed, hr, hw]

section
variable [Fintype T] [DecidableEq T] {pc : T → Point}

/-- A process moves on, and leaves the ends and their descriptors alone. -/
theorem Ends.stay (h : Ends m pc) (hpc : pc t = q) (href : m'.ref = m.ref) (hfds : m'.fds = m.fds)
    (hr : m'.readopen = m.readopen) (hw : m'.writeopen = m.writeopen) (hf : m'.freed = m.freed)
    (huses : ∀ w, q'.uses w → 0 < m.fds t w) (hcloses : ∀ w, q'.closes w ↔ q.closes w)
    (hfrees : q'.frees m ↔ q.frees m) : Ends m' (Function.update pc t q') := by
  subst hpc
  have hcl : ∀ t' w, (Function.update pc t q' t').closes w ↔ (pc t').closes w := by
    intro t' w
    by_cases htt : t' = t
    · subst htt; rw [Function.update_self]; exact hcloses w
    · rw [Function.update_of_ne htt]
  have hfr : ∀ t', (Function.update pc t q' t').frees m' ↔ (pc t').frees m := by
    intro t'
    rw [frees_congr hr hw]
    by_cases htt : t' = t
    · subst htt; rw [Function.update_self]; exact hfrees
    · rw [Function.update_of_ne htt]
  constructor
  · intro w; rw [href, hfds]; exact h.ref w
  · intro w; rw [href, isOpen_congr hr hw]; exact h.opened w
  · intro t' w hu
    rw [hfds]
    by_cases htt : t' = t
    · subst htt; rw [Function.update_self] at hu; exact huses w hu
    · rw [Function.update_of_ne htt] at hu; exact h.uses t' w hu
  · intro t' w hc
    rw [href, isOpen_congr hr hw]; exact h.closes t' w ((hcl t' w).1 hc)
  · intro t₁ t₂ w h₁ h₂
    exact h.closes_unique t₁ t₂ w ((hcl t₁ w).1 h₁) ((hcl t₂ w).1 h₂)
  · intro w h₀ hopen
    rw [href] at h₀
    rw [isOpen_congr hr hw] at hopen
    obtain ⟨t', ht'⟩ := h.closing w h₀ hopen
    exact ⟨t', (hcl t' w).2 ht'⟩
  · intro t' hf'
    rw [hf, closed_congr hr hw]; exact h.frees t' ((hfr t').1 hf')
  · intro t₁ t₂ h₁ h₂
    exact h.frees_unique t₁ t₂ ((hfr t₁).1 h₁) ((hfr t₂).1 h₂)
  · intro hcd hnf
    rw [closed_congr hr hw] at hcd
    obtain ⟨t', ht'⟩ := h.freeing hcd (hf ▸ hnf)
    exact ⟨t', (hfr t').2 ht'⟩
  · intro hfd
    rw [closed_congr hr hw]; exact h.freed (hf ▸ hfd)

/-- A process in user mode changes descriptors.  It goes on to close the ends whose
    last descriptor it dropped. -/
theorem Ends.refs (h : Ends m pc) (hpc : pc t = .user) (hr : m'.readopen = m.readopen)
    (hw : m'.writeopen = m.writeopen) (hf : m'.freed = m.freed)
    (href : ∀ w, m'.ref w = ∑ t, m'.fds t w)
    (hfds : ∀ t' w, t' ≠ t → 0 < m.fds t' w → 0 < m'.fds t' w)
    (hpos : ∀ w, 0 < m'.ref w → 0 < m.ref w) (huses : ∀ w, ¬ q'.uses w)
    (hcloses : ∀ w, q'.closes w ↔ m'.ref w = 0 ∧ 0 < m.ref w) (hfrees : ¬ q'.frees m) :
    Ends m' (Function.update pc t q') := by
  have hzero : ∀ w, m.ref w = 0 → m'.ref w = 0 := fun w h₀ => by
    have := hpos w; omega
  have hne : ∀ t', ∀ P : Point → Prop, ¬ P .user → P (pc t') → t' ≠ t := by
    rintro t' P hP ht' rfl
    rw [hpc] at ht'; exact hP ht'
  -- the other processes free what they freed, and this one nothing
  have hfr : ∀ t', (Function.update pc t q' t').frees m' ↔ (pc t').frees m := by
    intro t'
    rw [frees_congr hr hw]
    by_cases htt : t' = t
    · subst htt
      rw [Function.update_self, hpc]
      exact ⟨fun hx => absurd hx hfrees, fun hx => hx.elim⟩
    · rw [Function.update_of_ne htt]
  constructor
  · exact href
  · intro w hp
    rw [isOpen_congr hr hw]; exact h.opened w (hpos w hp)
  · intro t' w hu
    by_cases htt : t' = t
    · subst htt; rw [Function.update_self] at hu; exact absurd hu (huses w)
    · rw [Function.update_of_ne htt] at hu
      exact hfds t' w htt (h.uses t' w hu)
  · intro t' w hc
    rw [isOpen_congr hr hw]
    by_cases htt : t' = t
    · subst htt
      rw [Function.update_self] at hc
      obtain ⟨h₀, hp⟩ := (hcloses w).1 hc
      exact ⟨h₀, h.opened w hp⟩
    · rw [Function.update_of_ne htt] at hc
      exact (h.closes t' w hc).imp_left (hzero w)
  · intro t₁ t₂ w h₁ h₂
    by_cases ht₁ : t₁ = t <;> by_cases ht₂ : t₂ = t
    · rw [ht₁, ht₂]
    · rw [ht₁, Function.update_self] at h₁
      rw [Function.update_of_ne ht₂] at h₂
      have := (h.closes t₂ w h₂).1
      have := ((hcloses w).1 h₁).2
      omega
    · rw [ht₂, Function.update_self] at h₂
      rw [Function.update_of_ne ht₁] at h₁
      have := (h.closes t₁ w h₁).1
      have := ((hcloses w).1 h₂).2
      omega
    · rw [Function.update_of_ne ht₁] at h₁
      rw [Function.update_of_ne ht₂] at h₂
      exact h.closes_unique t₁ t₂ w h₁ h₂
  · intro w h₀ hopen
    rw [isOpen_congr hr hw] at hopen
    rcases Nat.eq_zero_or_pos (m.ref w) with hz | hp
    · obtain ⟨t', ht'⟩ := h.closing w hz hopen
      exact ⟨t', by rwa [Function.update_of_ne (hne t' (·.closes w) id ht')]⟩
    · exact ⟨t, by rw [Function.update_self]; exact (hcloses w).2 ⟨h₀, hp⟩⟩
  · intro t' hf'
    rw [hf, closed_congr hr hw]; exact h.frees t' ((hfr t').1 hf')
  · intro t₁ t₂ h₁ h₂
    exact h.frees_unique t₁ t₂ ((hfr t₁).1 h₁) ((hfr t₂).1 h₂)
  · intro hcd hnf
    rw [closed_congr hr hw] at hcd
    obtain ⟨t', ht'⟩ := h.freeing hcd (hf ▸ hnf)
    exact ⟨t', (hfr t').2 ht'⟩
  · intro hfd
    rw [closed_congr hr hw]; exact h.freed (hf ▸ hfd)

theorem Ends.dup (h : Ends m pc) (hpc : pc t = .user) {w : Bool} (hw : 0 < m.fds t w) :
    Ends (m.dup t w) (Function.update pc t .user) := by
  have hle : ∀ w', m.ref w' ≤ (m.dup t w).ref w' := by
    intro w'
    by_cases hww : w' = w
    · subst hww; simp [Mem.dup]
    · simp [Mem.dup, hww]
  refine h.refs hpc rfl rfl rfl (sum_dup h.ref w) (fun t' w' htt hp => ?_) (fun w' hp => ?_)
    (fun _ => id) (fun w' => ⟨False.elim, fun hc => ?_⟩) id
  · simpa [Mem.dup, htt] using hp
  · by_cases hww : w' = w
    · subst hww; exact hw.trans_le (fds_le_ref h.ref t w')
    · simpa [Mem.dup, hww] using hp
  · have := hle w'; omega

theorem Ends.fork (h : Ends m pc) (hpc : pc t = .user) {t' : T} (hf : ∀ w, m.fds t' w = 0) :
    Ends (m.fork t t') (Function.update pc t .user) := by
  refine h.refs hpc rfl rfl rfl (sum_fork h.ref hf) (fun i w _ hp => ?_) (fun w hp => ?_)
    (fun _ => id) (fun w => ⟨False.elim, fun hc => ?_⟩) id
  · have hit : i ≠ t' := by
      rintro rfl; rw [hf w] at hp; cases hp
    simpa [Mem.fork, hit] using hp
  · have := fds_le_ref h.ref t w
    simp only [Mem.fork] at hp
    omega
  · simp only [Mem.fork] at hc
    omega

theorem Ends.drop (h : Ends m pc) (hpc : pc t = .user) {w : Bool} (hw : 0 < m.fds t w)
    (huses : ∀ w', ¬ q'.uses w') (hcloses : ∀ w', q'.closes w' ↔ w' = w ∧ m.ref w = 1)
    (hfrees : ¬ q'.frees m) : Ends (m.drop t w) (Function.update pc t q') := by
  have hle := fds_le_ref h.ref t w
  refine h.refs hpc rfl rfl rfl (sum_drop h.ref hw) (fun t' w' htt hp => ?_) (fun w' hp => ?_)
    huses (fun w' => (hcloses w').trans ?_) hfrees
  · simpa [Mem.drop, htt] using hp
  · by_cases hww : w' = w
    · subst hww; omega
    · simpa [Mem.drop, hww] using hp
  · by_cases hww : w' = w
    · subst hww; simp [Mem.drop]; omega
    · simp [Mem.drop, hww]

/-- The end is closed under the lock, by the process that dropped its last
    descriptor. -/
theorem Ends.closeEnd (h : Ends m pc) {w : Bool} (hpc : pc t = .closeEnd w)
    (hexcl : ∀ t' ≠ t, (pc t').frees (m.setOpen w false) → (pc t').held = true → False) :
    Ends (m.setOpen w false) (Function.update pc t (.closeWakeup w)) := by
  have hmine := h.closes t w (by rw [hpc]; rfl)
  have hopen : ∀ w', (m.setOpen w false).isOpen w' = if w' = w then false else m.isOpen w' := by
    intro w'; cases w <;> cases w' <;> rfl
  have href : (m.setOpen w false).ref = m.ref := by cases w <;> rfl
  have hfds : (m.setOpen w false).fds = m.fds := by cases w <;> rfl
  have hfreed : (m.setOpen w false).freed = m.freed := by cases w <;> rfl
  have hnot : ¬ m.closed := fun hc => by
    have := hmine.2; rw [isOpen_eq_false hc w] at this; cases this
  have hother : ∀ t' ≠ t, ¬ (pc t').frees (m.setOpen w false) := by
    intro t' htt hf
    cases hq : (pc t').held with
    | true => exact hexcl t' htt hf hq
    | false =>
      -- it is about to call kfree, so both ends were closed before
      have hfm : (pc t').frees m := by
        cases hp : pc t' with
        | closeWakeup _ => rw [hp] at hq; cases hq
        | closeTest => rw [hp] at hq; cases hq
        | closeFree => trivial
        | _ => rw [hp] at hf; simp_all [Point.frees, Point.held]
      exact hnot (h.frees t' hfm).2
  constructor
  · intro w'; rw [href, hfds]; exact h.ref w'
  · intro w' hp
    rw [href] at hp
    have hww : w' ≠ w := by
      rintro rfl; rw [hmine.1] at hp; cases hp
    rw [hopen, if_neg hww]; exact h.opened w' hp
  · intro t' w' hu
    rw [hfds]
    by_cases htt : t' = t
    · subst htt; rw [Function.update_self] at hu; exact hu.elim
    · rw [Function.update_of_ne htt] at hu; exact h.uses t' w' hu
  · intro t' w' hc
    by_cases htt : t' = t
    · subst htt; rw [Function.update_self] at hc; exact hc.elim
    · rw [Function.update_of_ne htt] at hc
      have hww : w' ≠ w := by
        rintro rfl
        exact htt (h.closes_unique t' t w' hc (by rw [hpc]; rfl))
      rw [href, hopen, if_neg hww]; exact h.closes t' w' hc
  · intro t₁ t₂ w' h₁ h₂
    by_cases ht₁ : t₁ = t
    · rw [ht₁, Function.update_self] at h₁; exact h₁.elim
    · by_cases ht₂ : t₂ = t
      · rw [ht₂, Function.update_self] at h₂; exact h₂.elim
      · rw [Function.update_of_ne ht₁] at h₁
        rw [Function.update_of_ne ht₂] at h₂
        exact h.closes_unique t₁ t₂ w' h₁ h₂
  · intro w' h₀ ho
    rw [href] at h₀
    rw [hopen] at ho
    split_ifs at ho with hww
    obtain ⟨t', ht'⟩ := h.closing w' h₀ ho
    have htt : t' ≠ t := by
      rintro rfl; rw [hpc] at ht'; exact hww (ht').symm
    exact ⟨t', by rwa [Function.update_of_ne htt]⟩
  · intro t' hf
    by_cases htt : t' = t
    · subst htt
      rw [Function.update_self] at hf
      refine ⟨?_, hf⟩
      rw [hfreed]
      by_contra hne
      exact hnot (h.freed (by simpa using hne))
    · rw [Function.update_of_ne htt] at hf; exact absurd hf (hother t' htt)
  · intro t₁ t₂ h₁ h₂
    have hself : ∀ t', (Function.update pc t (.closeWakeup w) t').frees (m.setOpen w false) →
        t' = t := by
      intro t' hf
      by_contra htt
      rw [Function.update_of_ne htt] at hf; exact hother t' htt hf
    rw [hself t₁ h₁, hself t₂ h₂]
  · intro hcd _
    exact ⟨t, by rw [Function.update_self]; exact hcd⟩
  · intro hfd
    rw [hfreed] at hfd; exact absurd (h.freed hfd) hnot

theorem Ends.closeFree (h : Ends m pc) (hpc : pc t = .closeFree) :
    Ends m.setFreed (Function.update pc t .user) := by
  have hmine := h.frees t (by rw [hpc]; trivial)
  have hnone : ∀ w, ¬ (pc t).closes w := fun w hc => by rw [hpc] at hc; exact hc
  have hother : ∀ t', ¬ (Function.update pc t .user t').frees m.setFreed := by
    intro t' hf
    by_cases htt : t' = t
    · subst htt; rw [Function.update_self] at hf; exact hf
    · rw [Function.update_of_ne htt] at hf
      exact htt (h.frees_unique t' t ((frees_congr rfl rfl _).1 hf) (by rw [hpc]; trivial))
  have hcl : ∀ t' w, (Function.update pc t .user t').closes w ↔ (pc t').closes w := by
    intro t' w
    by_cases htt : t' = t
    · subst htt; rw [Function.update_self]; exact ⟨False.elim, fun hc => (hnone w hc).elim⟩
    · rw [Function.update_of_ne htt]
  constructor
  · exact h.ref
  · exact h.opened
  · intro t' w hu
    by_cases htt : t' = t
    · subst htt; rw [Function.update_self] at hu; exact hu.elim
    · rw [Function.update_of_ne htt] at hu; exact h.uses t' w hu
  · intro t' w hc; exact h.closes t' w ((hcl t' w).1 hc)
  · intro t₁ t₂ w h₁ h₂
    exact h.closes_unique t₁ t₂ w ((hcl t₁ w).1 h₁) ((hcl t₂ w).1 h₂)
  · intro w h₀ ho
    obtain ⟨t', ht'⟩ := h.closing w h₀ ho
    exact ⟨t', (hcl t' w).2 ht'⟩
  · intro t' hf; exact absurd hf (hother t')
  · intro t₁ _ h₁ _; exact absurd h₁ (hother t₁)
  · intro _ hnf; cases hnf
  · intro _; exact hmine.2

/-- **A run keeps the invariant of the ends.** -/
theorem Runs.ends (hr : Runs t m k q m' q') (hpc : pc t = q) (h : Ends m pc)
    (hexcl : q.held = true → ∀ t' ≠ t, ∀ m : Mem T, (pc t').frees m → (pc t').held = true → False) :
    Ends m' (Function.update pc t q') := by
  have huse : ∀ w, q.uses w → 0 < m.fds t w := fun w hu => h.uses t w (by rw [hpc]; exact hu)
  cases hr with
  | write hf => exact h.stay hpc rfl rfl rfl rfl rfl (fun w hw => hw ▸ hf) (fun _ => Iff.rfl) Iff.rfl
  | read hf => exact h.stay hpc rfl rfl rfl rfl rfl (fun w hw => hw ▸ hf) (fun _ => Iff.rfl) Iff.rfl
  | dup hf => exact h.dup hpc hf
  | fork hf => exact h.fork hpc hf
  | close hf h₁ =>
    exact h.drop hpc hf (fun _ => id)
      (fun w' => ⟨fun hc => ⟨hc.symm, h₁⟩, fun hc => hc.1.symm⟩) id
  | drop hf h₁ => exact h.drop hpc hf (fun _ => id) (fun w' => ⟨False.elim, fun hc => h₁ hc.2⟩) id
  | put | writeFail | writeStop | readFail | readSleep | readCopy | take | lose | readStop =>
    exact h.stay hpc rfl rfl rfl rfl rfl huse (fun _ => Iff.rfl) Iff.rfl
  | wrote | readReturn =>
    exact h.stay hpc rfl rfl rfl rfl rfl (fun _ => False.elim) (fun _ => Iff.rfl) Iff.rfl
  | closeEnd => exact h.closeEnd hpc fun t' htt => hexcl rfl t' htt _
  | closeBoth hr hw =>
    exact h.stay hpc rfl rfl rfl rfl rfl (fun _ => False.elim) (fun _ => Iff.rfl)
      ⟨fun _ => ⟨hr, hw⟩, fun _ => rfl⟩
  | closeOne hone =>
    refine h.stay hpc rfl rfl rfl rfl rfl (fun _ => False.elim) (fun _ => Iff.rfl)
      ⟨fun hf => Bool.noConfusion hf, fun hf => ?_⟩
    rw [hf.1, hf.2] at hone
    simp at hone
  | closeFree => exact h.closeFree hpc

/-- A process only sleeps, or waits for the lock behind a sleep, at the head of a
    loop. -/
def Point.loops : Point → Prop
  | .writeLoop _ _ _ _ => True
  | .readLoop _ _ => True
  | _ => False

omit [Fintype T] in
theorem loops_of_reach (h : Reach code (Starts p) ok σ) (t : T) (ht : σ.ctx t ≠ .awake) :
    (σ.pc t).loops := by
  refine h.parked (A := Point.loops) (fun σ hi => hi.ctx) (fun t q m b k q' hi => ?_) t ht
  cases Does.sleeps hi <;> trivial

omit [Fintype T] in
/-- Of two processes that hold the lock, one is asleep. -/
theorem not_both (h : Reach code (Starts p) ok σ) (hc : σ.ctx t = .awake)
    (hq : (σ.pc t).held = true) {t' : T} (htt : t' ≠ t) {m : Mem T} (hf : (σ.pc t').frees m)
    (hq' : (σ.pc t').held = true) : False := by
  by_cases hc' : σ.ctx t' = .awake
  · exact htt ((inv_of_reach h).exclusive hc' hc hq' hq)
  · have hl := loops_of_reach h t' hc'
    generalize σ.pc t' = q₀ at hf hl
    cases q₀ <;> first | exact hf.elim | exact hl.elim

theorem Acquires.ends (ha : Acquires q q') (hpc : pc t = q) (h : Ends m pc) :
    Ends m (Function.update pc t q') := by
  have huse : ∀ w, q.uses w → 0 < m.fds t w := fun w hu => h.uses t w (by rw [hpc]; exact hu)
  cases ha with
  | write => exact h.stay hpc rfl rfl rfl rfl rfl huse (fun _ => Iff.rfl) Iff.rfl
  | read => exact h.stay hpc rfl rfl rfl rfl rfl huse (fun _ => Iff.rfl) Iff.rfl
  | close => exact h.stay hpc rfl rfl rfl rfl rfl (fun _ => False.elim) (fun _ => Iff.rfl) Iff.rfl

theorem Releases.ends (hr : Releases q q') (hpc : pc t = q) (h : Ends m pc) :
    Ends m (Function.update pc t q') := by
  cases hr with
  | closeUser =>
    exact h.stay hpc rfl rfl rfl rfl rfl (fun _ => False.elim) (fun _ => Iff.rfl)
      ⟨False.elim, fun hf => absurd hf Bool.false_ne_true⟩
  | closeFree =>
    exact h.stay hpc rfl rfl rfl rfl rfl (fun _ => False.elim) (fun _ => Iff.rfl)
      ⟨fun _ => rfl, fun _ => trivial⟩
  | _ => exact h.stay hpc rfl rfl rfl rfl rfl (fun _ => False.elim) (fun _ => Iff.rfl) Iff.rfl

theorem Sleeps.ends {c : Chan} (hs : Sleeps q c q') (hpc : pc t = q) (h : Ends m pc) :
    Ends m (Function.update pc t q') := by
  have huse : ∀ w, q.uses w → 0 < m.fds t w := fun w hu => h.uses t w (by rw [hpc]; exact hu)
  cases hs <;> exact h.stay hpc rfl rfl rfl rfl rfl huse (fun _ => Iff.rfl) Iff.rfl

theorem Wakes.ends {c : Chan} (hw : Wakes m q c q') (hpc : pc t = q) (h : Ends m pc) :
    Ends m (Function.update pc t q') := by
  have huse : ∀ w, q.uses w → 0 < m.fds t w := fun w hu => h.uses t w (by rw [hpc]; exact hu)
  cases hw with
  | closeWrite | closeRead =>
    exact h.stay hpc rfl rfl rfl rfl rfl (fun _ => False.elim) (fun _ => Iff.rfl) Iff.rfl
  | _ => exact h.stay hpc rfl rfl rfl rfl rfl huse (fun _ => Iff.rfl) Iff.rfl

/-- **A step keeps the invariant of the ends.** -/
theorem Ends.step (h : Ends σ.mem σ.pc) (hr : Reach code (Starts p) ok σ) {a : Option T}
    (hs : Step code σ a σ') : Ends σ'.mem σ'.pc := by
  cases hs with
  | acquire _ hi _ => exact (Does.acquires hi).ends rfl h
  | release _ hi _ => exact (Does.releases hi).ends rfl h
  | sleep _ hi _ => exact (Does.sleeps hi).ends rfl h
  | wakeup _ hi => exact (Does.wakes hi).ends rfl h
  | run hc hi => exact (Does.runs hi).ends rfl h fun hq t' htt _ hf => not_both hr hc hq htt hf
  | resume _ _ => exact h
  | kill => exact h

theorem Starts.ends (h : Starts p σ) : Ends σ.mem σ.pc := by
  obtain ⟨data, hm⟩ := h.mem
  have hnone : ∀ t, σ.pc t = .user := h.pc
  rw [hm]
  constructor
  · intro w; simp [Mem.opened]
  · intro w _; cases w <;> rfl
  · intro t w hu; rw [hnone t] at hu; exact hu.elim
  · intro t w hc; rw [hnone t] at hc; exact hc.elim
  · intro t _ w hc; rw [hnone t] at hc; exact hc.elim
  · intro w h₀; simp [Mem.opened] at h₀
  · intro t hf; rw [hnone t] at hf; exact hf.elim
  · intro t _ hf; rw [hnone t] at hf; exact hf.elim
  · intro hcd _; exact absurd hcd.1 (by simp [Mem.opened])
  · intro hfd; exact absurd hfd (by simp [Mem.opened])

theorem ends_of_reach (h : Reach code (Starts p) ok σ) : Ends σ.mem σ.pc :=
  h.invariant_of (I := Reach code (Starts p) ok) (J := fun σ => Ends σ.mem σ.pc) (fun _ hr => hr)
    (fun _ hi => hi.ends) fun _ _ _ hr hE hs _ => hE.step hr hs

/-! ## Freeing the pipe -/

omit [DecidableEq T] in
theorem Ends.not_freed (h : Ends m pc) {w : Bool} (hw : m.isOpen w = true) : m.freed = false := by
  by_contra hf
  have := isOpen_eq_false (h.freed (by simpa using hf)) w
  rw [hw] at this; cases this

omit [DecidableEq T] in
/-- Where a process accesses the pipe, it is not freed; behind the test in
    pipeclose, this takes what the proof outline says. -/
theorem Ends.touches (h : Ends m pc) (ht : (pc t).touches = true)
    (hone : pc t = .closeRelease false → m.readopen = true ∨ m.writeopen = true) :
    m.freed = false := by
  have huses : ∀ w, (pc t).uses w → m.freed = false := fun w hu =>
    h.not_freed (h.opened w ((h.uses t w hu).trans_le (fds_le_ref h.ref t w)))
  have hcloses : ∀ w, (pc t).closes w → m.freed = false := fun w hc =>
    h.not_freed (h.closes t w hc).2
  have htest : ((pc t).frees m ↔ m.closed) → m.freed = false := by
    intro hiff
    by_contra hf
    have hcd := h.freed (by simpa using hf)
    exact hf (h.frees t (hiff.2 hcd)).1
  cases hq : pc t with
  | user | writeReturn | readReturn => rw [hq] at ht; cases ht
  | close w | closeEnd w => exact hcloses w (by rw [hq]; rfl)
  | closeWakeup w => exact htest (by rw [hq]; rfl)
  | closeTest => exact htest (by rw [hq]; rfl)
  | closeRelease both =>
    cases both with
    | true => exact (h.frees t (by rw [hq]; rfl)).1
    | false =>
      rcases hone hq with ho | ho
      · exact h.not_freed (w := false) ho
      · exact h.not_freed (w := true) ho
  | closeFree => exact (h.frees t (by rw [hq]; trivial)).1
  | write | writeLoop | writeFail | writeSleep | writeWakeup | writeRelease =>
    exact huses true (by rw [hq]; rfl)
  | read | readLoop | readFail | readSleep | readCopy | readWakeup | readRelease =>
    exact huses false (by rw [hq]; rfl)

/-- **A pipe is freed once, by the process that leaves it last.**  As long as a
    process is in pipe.c, or about to call kfree, the pipe has not been freed; and
    it has been when no process is, and none has a descriptor. -/
theorem freed_once (h : Reach code (Starts p) ok σ) :
    (∀ t, (σ.pc t).touches = true → σ.mem.freed = false) ∧
      ((∀ t, (σ.pc t).touches = false) → (∀ t w, σ.mem.fds t w = 0) → σ.mem.freed = true) := by
  have hE := ends_of_reach h
  constructor
  · intro t ht
    refine hE.touches ht fun hq => ?_
    have hc : σ.ctx t = .awake := by
      by_contra hne
      have := loops_of_reach h t hne
      rw [hq] at this; exact this
    have hown := ((inv_of_reach h).owner t).2 ⟨hc, by rw [hq]; rfl⟩
    have hk := ((holds_of_reach h).owner t hown).2
    rw [hq] at hk
    exact hk.resolve_left Bool.false_ne_true
  · intro hout hnone
    have href : ∀ w, σ.mem.ref w = 0 := fun w => by
      rw [hE.ref w]; exact Finset.sum_eq_zero fun t _ => hnone t w
    have hopen : ∀ w, σ.mem.isOpen w = false := by
      intro w
      by_contra ho
      obtain ⟨t, ht⟩ := hE.closing w (href w) (by simpa using ho)
      have := hout t
      generalize σ.pc t = q₀ at ht this
      cases q₀ <;> first | exact ht.elim | cases this
    by_contra hf
    obtain ⟨t, ht⟩ := hE.freeing ⟨hopen false, hopen true⟩ (by simpa using hf)
    have := hout t
    generalize σ.pc t = q₀ at ht this
    cases q₀ <;> first | exact ht.elim | cases this

/-! ## A run -/

instance : Fintype Proc where
  elems := {.parent, .child}
  complete t := by cases t <;> decide

/-- The parent forks, and the child closes its descriptors.  The parent writes two
    bytes, closes the write end and reads the bytes.  Then it reads once more. -/
def transfer : List (Event Proc (Act Proc)) :=
  [.go .parent (.fork .child), .go .child (.close true), .go .child (.close false),
    .go .parent (.write (fun i => some (UInt8.ofNat i)) 2)] ++
  List.replicate 7 (.go .parent .none) ++
  [.go .parent (.close true)] ++ List.replicate 5 (.go .parent .none) ++
  [.go .parent (.read (fun _ => true) 9)] ++ List.replicate 8 (.go .parent .none) ++
  [.go .parent (.read (fun _ => true) 9)] ++ List.replicate 5 (.go .parent .none)

/-- Then it closes the read end too, and frees the pipe. -/
def closing : List (Event Proc (Act Proc)) :=
  transfer ++ [.go .parent .none, .go .parent (.close false)] ++ List.replicate 6 (.go .parent .none)

theorem freed_once_closing : ∃ σ : PState Proc, Reach code (Starts .parent) (fun _ _ => True) σ ∧
    σ.mem.freed = true ∧
    (∀ t, (σ.pc t).touches = true → σ.mem.freed = false) ∧
      ((∀ t, (σ.pc t).touches = false) → (∀ t w, σ.mem.fds t w = 0) → σ.mem.freed = true) := by
  have hplay : (play pick (fun _ _ => true) closing (start Proc.parent)).map
      (fun σ => σ.mem.freed) = some true := by decide +kernel
  obtain ⟨σ, hr, hf⟩ := reach_play _ (fun _ _ _ => trivial) hplay
  exact ⟨σ, hr, hf, freed_once hr⟩

/-! ## The end of the file -/

/-- The write end is closed, and the pipe is empty. -/
def Mem.exhausted (m : Mem T) : Prop := m.nread = m.nwrite ∧ m.writeopen = false

/-- The process is in a read that has found the end of the file. -/
def Point.finds : Point → Prop
  | .readWakeup dst n got => got = [] ∧ 0 < n ∧ dst 0 = true
  | .readRelease dst n got => got = [] ∧ 0 < n ∧ dst 0 = true
  | .readReturn dst n got r => got = [] ∧ 0 < n ∧ dst 0 = true ∧ r = 0
  | _ => False

/-- An exhausted pipe stays so, as no process writes it any more. -/
theorem Runs.exhausted (hr : Runs t m k q m' q') (hE : Ends m pc) (hpc : pc t = q)
    (h : m.exhausted) : m'.exhausted := by
  cases hr with
  | put =>
    have hu := hE.uses t true (by rw [hpc]; rfl)
    have := hE.opened true (hu.trans_le (fds_le_ref hE.ref t true))
    have hclosed : m.isOpen true = false := h.2
    rw [this] at hclosed; cases hclosed
  | take _ hne => exact absurd h.1 hne
  | lose _ hne => exact absurd h.1 hne
  | @closeEnd w =>
    cases w with
    | true => exact ⟨h.1, rfl⟩
    | false => exact h
  | _ => exact h

omit [Fintype T] in
/-- Only a read that sees the pipe exhausted finds the end of the file. -/
theorem Runs.finds (hr : Runs t m k q m' q') (hq : q.held = true → q.asserts m)
    (h : q.finds → m.exhausted) : q'.finds → m'.exhausted := by
  cases hr with
  | @lose dst n got hi hne hdst =>
    rintro ⟨rfl, -, hdst₀⟩
    rw [List.length_nil] at hdst
    rw [hdst] at hdst₀; cases hdst₀
  | @readStop dst n got hstop =>
    rintro ⟨rfl, hn, -⟩
    have hempty : m.nread = m.nwrite := hstop.resolve_left (by simpa using hn)
    exact ⟨hempty, ((hq rfl).2 rfl).resolve_left (not_not.2 hempty)⟩
  | _ => exact False.elim

theorem Acquires.finds (h : Acquires q q') : ¬ q'.finds := by
  cases h <;> exact id

theorem Releases.finds (h : Releases q q') (hf : q'.finds) : q.finds := by
  cases h with
  | writeFail | writeRelease => exact hf.elim
  | readFail => exact absurd hf.2.2.2 (by decide)
  | readRelease => exact ⟨hf.1, hf.2.1, hf.2.2.1⟩
  | closeUser | closeFree => exact hf.elim

theorem Sleeps.finds {c : Chan} (h : Sleeps q c q') : ¬ q'.finds := by
  cases h; all_goals exact id

omit [DecidableEq T] [Fintype T] in
theorem Wakes.finds {c : Chan} (h : Wakes m q c q') (hf : q'.finds) : q.finds := by
  cases h with
  | read => exact hf
  | _ => exact hf.elim

/-- A read that found the end of the file found the pipe exhausted. -/
def AtEnd (σ : PState T) : Prop := ∀ t, (σ.pc t).finds → σ.mem.exhausted

theorem AtEnd.step (h : AtEnd σ) (hr : Reach code (Starts p) ok σ) {a : Option T}
    (hs : Step code σ a σ') : AtEnd σ' := by
  -- the thread moves on, without a change to the pipe
  have hmove : ∀ {t : T} {q : Point}, σ'.mem = σ.mem → σ'.pc = Function.update σ.pc t q →
      (q.finds → (σ.pc t).finds) → AtEnd σ' := by
    intro t q hm hpc hf t' ht'
    rw [hm]
    rw [hpc] at ht'
    by_cases htt : t' = t
    · subst htt; rw [Function.update_self] at ht'; exact h t' (hf ht')
    · rw [Function.update_of_ne htt] at ht'; exact h t' ht'
  cases hs with
  | acquire _ hi _ => exact hmove rfl rfl fun hf => absurd hf (Does.acquires hi).finds
  | release _ hi _ => exact hmove rfl rfl (Does.releases hi).finds
  | sleep _ hi _ => exact hmove rfl rfl fun hf => absurd hf (Does.sleeps hi).finds
  | wakeup _ hi => exact hmove rfl rfl (Does.wakes hi).finds
  | resume _ _ => exact h
  | kill => exact h
  | @run t m q hc hi =>
    have hruns := Does.runs hi
    intro t' ht'
    by_cases htt : t' = t
    · subst htt
      simp only [State.goto_pc, Function.update_self] at ht'
      refine hruns.finds (fun hq => ?_) (h t') ht'
      have ha := (holds_of_reach hr).owner t' (((inv_of_reach hr).owner t').2 ⟨hc, hq⟩)
      exact ⟨⟨ha.1.sent, ha.1.bound, ha.1.nwrite⟩,
        by generalize σ.pc t' = q₀ at ha; cases q₀ <;> exact ha.2⟩
    · simp only [State.goto_pc, Function.update_of_ne htt] at ht'
      exact hruns.exhausted (ends_of_reach hr) rfl (h t' ht')

theorem atEnd_of_reach (h : Reach code (Starts p) ok σ) : AtEnd σ :=
  h.invariant_of (I := Reach code (Starts p) ok) (J := AtEnd) (fun _ hr => hr)
    (fun _ hi t ht => by rw [hi.pc] at ht; exact ht.elim) fun _ _ _ hr hA hs _ => hA.step hr hs

/-- **A read that returns 0 is at the end of the file**: all that was ever sent has
    been taken, and no process can send more. -/
theorem end_of_file (h : Reach code (Starts p) ok σ) {dst : ℕ → Bool} {n : ℤ}
    (hn : 0 < n) (hdst : dst 0 = true) (ht : σ.pc t = .readReturn dst n [] 0) :
    σ.mem.sent.map Prod.snd = σ.mem.reads.flatMap Read.bytes ++ inflight σ ∧
      ∀ t', σ.mem.fds t' true = 0 := by
  have hex := atEnd_of_reach h t (by rw [ht]; exact ⟨rfl, hn, hdst, rfl⟩)
  have hE := ends_of_reach h
  have hitems : σ.mem.items = [] := items_eq_nil.2 hex.1
  refine ⟨?_, fun t' => ?_⟩
  · rw [(stream_of_reach h).sent, hitems, List.append_nil]
  · by_contra hne
    have := hE.opened true ((Nat.pos_of_ne_zero hne).trans_le (fds_le_ref hE.ref t' true))
    rw [show σ.mem.isOpen true = false from hex.2] at this; cases this

theorem end_of_file_transfer : ∃ (σ : PState Proc) (dst : ℕ → Bool),
    Reach code (Starts .parent) (fun _ _ => True) σ ∧ 0 < (9 : ℤ) ∧ dst 0 = true ∧
      σ.pc .parent = .readReturn dst 9 [] 0 ∧
      σ.mem.sent.map Prod.snd = σ.mem.reads.flatMap Read.bytes ++ inflight σ ∧
      ∀ t', σ.mem.fds t' true = 0 := by
  have hplay : (play pick (fun _ _ => true) transfer (start Proc.parent)).map
      (fun σ => σ.pc .parent) = some (.readReturn (fun _ => true) 9 [] 0) := rfl
  obtain ⟨σ, hr, hpc⟩ := reach_play _ (fun _ _ _ => trivial) hplay
  exact ⟨σ, _, hr, by decide, rfl, hpc, end_of_file hr (by decide) rfl hpc⟩

end

/-! ## What reads and writes return -/

variable [DecidableEq T]

/-- A call on the pipe. -/
inductive Call where
  | write (src : ℕ → Option UInt8) (n : ℤ)
  | read (dst : ℕ → Bool) (n : ℤ)

/-- The call in which a process is. -/
def Point.call : Point → Option Call
  | .write src n => some (.write src n)
  | .writeLoop src n _ _ => some (.write src n)
  | .writeFail src n _ _ => some (.write src n)
  | .writeSleep src n _ => some (.write src n)
  | .writeWakeup src n _ => some (.write src n)
  | .writeRelease src n _ => some (.write src n)
  | .writeReturn src n _ _ => some (.write src n)
  | .read dst n => some (.read dst n)
  | .readLoop dst n => some (.read dst n)
  | .readFail dst n => some (.read dst n)
  | .readSleep dst n => some (.read dst n)
  | .readCopy dst n _ => some (.read dst n)
  | .readWakeup dst n _ => some (.read dst n)
  | .readRelease dst n _ => some (.read dst n)
  | .readReturn dst n _ _ => some (.read dst n)
  | _ => none

/-- A write may put `i` bytes of its buffer. -/
def Puts (src : ℕ → Option UInt8) (n : ℤ) (i : ℕ) : Prop :=
  (i : ℤ) ≤ max n 0 ∧ ∀ j < i, src j ≠ none

/-- A read may copy these bytes out. -/
def Gets (dst : ℕ → Bool) (n : ℤ) (got : List UInt8) : Prop :=
  (got.length : ℤ) ≤ max n 0 ∧ ∀ j < got.length, dst j = true

/-- What the reads of a process took that have ended. -/
def Mem.readBy (m : Mem T) (t : T) : List (Read T) := m.reads.filter fun r => r.reader = t

/-- Since `m₀` the process has taken the bytes `got` from the pipe, and one more only if
    copyout failed for it. -/
def Mem.took (m₀ m : Mem T) (t : T) (dst : ℕ → Bool) (got : List UInt8) : Prop :=
  ∃ lost, (lost ≠ none → dst got.length = false) ∧ m.readBy t = m₀.readBy t ++ [⟨t, got, lost⟩]

/-- What a process that `killed` or not has done since it made its call in `m₀`, next to
    the bytes that it has put. -/
def Point.done (t : T) (m₀ m : Mem T) (killed : Bool) : Point → Prop
  | .writeLoop src n i _ => Puts src n i
  | .writeFail src n i _ => Puts src n i ∧ (m.readopen = false ∨ killed = true)
  | .writeSleep src n i => Puts src n i
  | .writeWakeup src n i => Puts src n i ∧ ((i : ℤ) = max n 0 ∨ src i = none)
  | .writeRelease src n i => Puts src n i ∧ ((i : ℤ) = max n 0 ∨ src i = none)
  | .writeReturn src n i r =>
    Puts src n i ∧ (r = i ∧ ((i : ℤ) = max n 0 ∨ src i = none) ∨
      r = -1 ∧ (m.readopen = false ∨ killed = true))
  | .readFail _ _ => m.readBy t = m₀.readBy t ∧ killed = true
  | .readCopy dst n got => m.readBy t = m₀.readBy t ∧ Gets dst n got
  | .readWakeup dst n got => Gets dst n got ∧ m₀.took m t dst got
  | .readRelease dst n got => Gets dst n got ∧ m₀.took m t dst got
  | .readReturn dst n got r =>
    r = got.length ∧ Gets dst n got ∧ m₀.took m t dst got ∨
      r = -1 ∧ got = [] ∧ killed = true ∧ m.readBy t = m₀.readBy t
  | _ => m.readBy t = m₀.readBy t

/-- The process is in the call that it made in `m₀`. -/
structure Serves (t : T) (c : Call) (m₀ : Mem T) (σ : PState T) : Prop where
  call : (σ.pc t).call = some c
  writes : σ.mem.writes t = m₀.writes t
  done : (σ.pc t).done t m₀ σ.mem (σ.killed t)

variable {m₀ : Mem T} {c : Call} {k' : Bool}

/-- What a process has done is not undone by others. -/
theorem Point.done_mono (hr : m.readopen = false → m'.readopen = false)
    (hread : m'.readBy t = m.readBy t) (hk : k = true → k' = true) (h : q.done t m₀ m k) :
    q.done t m₀ m' k' := by
  have htook : ∀ {dst got}, m₀.took m t dst got → m₀.took m' t dst got :=
    fun ⟨lost, hl, h⟩ => ⟨lost, hl, hread.trans h⟩
  have hfail : m.readopen = false ∨ k = true → m'.readopen = false ∨ k' = true :=
    fun hf => hf.imp hr hk
  cases q with
  | writeLoop => exact h
  | writeFail => exact ⟨h.1, hfail h.2⟩
  | writeSleep => exact h
  | writeWakeup => exact h
  | writeRelease => exact h
  | writeReturn => exact ⟨h.1, h.2.imp_right fun hr => ⟨hr.1, hfail hr.2⟩⟩
  | readFail => exact ⟨hread.trans h.1, hk h.2⟩
  | readCopy => exact ⟨hread.trans h.1, h.2⟩
  | readWakeup => exact ⟨h.1, htook h.2⟩
  | readRelease => exact ⟨h.1, htook h.2⟩
  | readReturn =>
    rcases h with ⟨hr, hg, ht⟩ | ⟨hr, hg, hkill, ht⟩
    · exact .inl ⟨hr, hg, htook ht⟩
    · exact .inr ⟨hr, hg, hk hkill, hread.trans ht⟩
  | _ => exact hread.trans h

/-- What a process does to the calls of the others. -/
theorem Runs.others (h : Runs t m k q m' q') : (m.readopen = false → m'.readopen = false) ∧
    ∀ t' ≠ t, m'.readBy t' = m.readBy t' := by
  have hended : ∀ {r : Read T} {m : Mem T}, r.reader = t → ∀ t' ≠ t,
      (m.ended r).readBy t' = m.readBy t' := by
    intro r m hr t' ht'
    simp [Mem.readBy, Mem.ended, List.filter_append, hr, Ne.symm ht']
  cases h with
  | @closeEnd w =>
    cases w with
    | true => exact ⟨id, fun _ _ => rfl⟩
    | false => exact ⟨fun _ => rfl, fun _ _ => rfl⟩
  | lose => exact ⟨id, hended rfl⟩
  | readStop => exact ⟨id, hended rfl⟩
  | _ => exact ⟨id, fun _ _ => rfl⟩

/-- A read ends that has taken these bytes. -/
theorem Mem.took_ended {lost : Option UInt8} {dst : ℕ → Bool} {got : List UInt8}
    (h : m.readBy t = m₀.readBy t) (hl : lost ≠ none → dst got.length = false) :
    m₀.took (m.ended ⟨t, got, lost⟩) t dst got :=
  ⟨lost, hl, by rw [← h]; simp [Mem.readBy, Mem.ended, List.filter_append]⟩

theorem bytes_length {src : ℕ → Option UInt8} {i : ℕ} (h : ∀ j < i, src j ≠ none) :
    (bytes src i).length = i := by
  induction i with
  | zero => rfl
  | succ i ih =>
    obtain ⟨ch, hch⟩ := Option.ne_none_iff_exists'.1 (h i (Nat.lt_succ_self i))
    rw [bytes_succ hch, List.length_append, ih fun j hj => h j (Nat.lt_succ_of_lt hj)]
    rfl

theorem Runs.done (h : Runs t m k q m' q') (hcall : q.call = some c) (hq : q.done t m₀ m k) :
    q' = .user ∨
      q'.call = some c ∧ m'.writes t = m.writes t ∧ q'.done t m₀ m' k := by
  cases h with
  | put hi hopen hfull hsrc =>
    refine .inr ⟨hcall, rfl, by push_cast; omega, fun j hj => ?_⟩
    rcases Nat.lt_succ_iff_lt_or_eq.1 hj with hj | rfl
    · exact hq.2 j hj
    · rw [hsrc]; exact Option.some_ne_none _
  | writeFail hi hf => exact .inr ⟨hcall, rfl, hq, hf⟩
  | writeStop hstop =>
    refine .inr ⟨hcall, rfl, hq, hstop.imp_left fun hle => ?_⟩
    have := hq.1
    omega
  | wrote => exact .inl rfl
  | readFail hk => exact .inr ⟨hcall, rfl, hq, hk⟩
  | readSleep => exact .inr ⟨hcall, rfl, hq⟩
  | readCopy =>
    exact .inr ⟨hcall, rfl, hq, le_max_right _ _, fun j hj => absurd hj (Nat.not_lt_zero j)⟩
  | take hi hne hdst =>
    obtain ⟨hread, hle, hall⟩ := hq
    refine .inr ⟨hcall, rfl, hread, ?_, fun j hj => ?_⟩
    · rw [List.length_append, List.length_singleton]
      push_cast
      omega
    · rw [List.length_append, List.length_singleton] at hj
      rcases Nat.lt_succ_iff_lt_or_eq.1 hj with hj | rfl
      · exact hall j hj
      · exact hdst
  | lose hi hne hdst =>
    obtain ⟨hread, hgets⟩ := hq
    exact .inr ⟨hcall, rfl, hgets, Mem.took_ended hread fun _ => hdst⟩
  | readStop =>
    obtain ⟨hread, hgets⟩ := hq
    exact .inr ⟨hcall, rfl, hgets, Mem.took_ended hread fun hl => absurd rfl hl⟩
  | readReturn => exact .inl rfl
  | closeFree => exact .inl rfl
  | _ => cases hcall

theorem Acquires.done (h : Acquires q q') (hcall : q.call = some c) (hq : q.done t m₀ m k) :
    q'.call = some c ∧ q'.done t m₀ m k := by
  cases h with
  | write => exact ⟨hcall, le_max_right _ _, fun j hj => absurd hj (Nat.not_lt_zero j)⟩
  | read => exact ⟨hcall, hq⟩
  | close => cases hcall

theorem Releases.done (h : Releases q q') (hcall : q.call = some c) (hq : q.done t m₀ m k) :
    q'.call = some c ∧ q'.done t m₀ m k := by
  cases h with
  | writeFail => exact ⟨hcall, hq.1, .inr ⟨rfl, hq.2⟩⟩
  | writeRelease => exact ⟨hcall, hq.1, .inl ⟨rfl, hq.2⟩⟩
  | readFail => exact ⟨hcall, .inr ⟨rfl, rfl, hq.2, hq.1⟩⟩
  | readRelease => exact ⟨hcall, .inl ⟨rfl, hq⟩⟩
  | closeUser => cases hcall
  | closeFree => cases hcall

theorem Sleeps.done {c' : Chan} (h : Sleeps q c' q') (hcall : q.call = some c)
    (hq : q.done t m₀ m k) : q'.call = some c ∧ q'.done t m₀ m k := by
  cases h
  · exact ⟨hcall, hq⟩
  · exact ⟨hcall, hq⟩

theorem Wakes.done {c' : Chan} (h : Wakes m q c' q') (hcall : q.call = some c)
    (hq : q.done t m₀ m k) : q'.call = some c ∧ q'.done t m₀ m k := by
  cases h with
  | writeFull => exact ⟨hcall, hq⟩
  | write => exact ⟨hcall, hq⟩
  | read => exact ⟨hcall, hq⟩
  | closeWrite => cases hcall
  | closeRead => cases hcall

/-- **A step keeps what a call has done**, up to its return. -/
theorem Serves.step (h : Serves t c m₀ σ) {a : Option T} (hs : Step code σ a σ') :
    σ'.pc t = .user ∨ Serves t c m₀ σ' := by
  -- a process moves on, without a change to the pipe
  have hmove : ∀ {u : T} {q : Point}, σ'.mem = σ.mem → σ'.killed = σ.killed →
      σ'.pc = Function.update σ.pc u q →
      (u = t → q.call = some c ∧ q.done t m₀ σ.mem (σ.killed t)) → Serves t c m₀ σ' := by
    intro u q hm hk hpc hq
    by_cases htu : t = u
    · subst htu
      obtain ⟨hcall, hdone⟩ := hq rfl
      exact ⟨by rw [hpc, Function.update_self, hcall], by rw [hm, h.writes],
        by rw [hpc, Function.update_self, hm, hk]; exact hdone⟩
    · exact ⟨by rw [hpc, Function.update_of_ne htu, h.call], by rw [hm, h.writes],
        by rw [hpc, Function.update_of_ne htu, hm, hk]; exact h.done⟩
  cases hs with
  | acquire _ hi _ =>
    exact .inr (hmove rfl rfl rfl (by rintro rfl; exact (Does.acquires hi).done h.call h.done))
  | release _ hi _ =>
    exact .inr (hmove rfl rfl rfl (by rintro rfl; exact (Does.releases hi).done h.call h.done))
  | sleep _ hi _ =>
    exact .inr (hmove rfl rfl rfl (by rintro rfl; exact (Does.sleeps hi).done h.call h.done))
  | wakeup _ hi =>
    exact .inr (hmove rfl rfl rfl (by rintro rfl; exact (Does.wakes hi).done h.call h.done))
  | resume _ _ => exact .inr ⟨h.call, h.writes, h.done⟩
  | @kill u =>
    refine .inr ⟨h.call, h.writes, Point.done_mono id rfl (fun hk => ?_) h.done⟩
    by_cases htu : t = u
    · subst htu; simp
    · simpa [htu] using hk
  | @run u m q _ hi =>
    have hruns := Does.runs hi
    by_cases htu : t = u
    · subst htu
      rcases hruns.done h.call h.done with hq | ⟨hcall, hwrites, hdone⟩
      · exact .inl (by simpa using hq)
      · exact .inr ⟨by simpa using hcall, by simpa [h.writes] using hwrites, by simpa using hdone⟩
    · obtain ⟨hopen, hread⟩ := hruns.others
      have hdone := Point.done_mono hopen (hread t htu) id h.done
      exact .inr ⟨by simpa [htu] using h.call, by simpa [hruns.written.2 t htu] using h.writes,
        by simpa [htu] using hdone⟩

/-- The process makes no call. -/
def Within (t : T) (σ : PState T) (t' : T) : Prop := t' = t → σ.pc t ≠ .user

theorem serves_of_reach {σ₀ : PState T} (hc : (σ₀.pc t).call = some c)
    (hq : (σ₀.pc t).done t σ₀.mem σ₀.mem (σ₀.killed t))
    (h : Reach code (· = σ₀) (Within t) σ) : σ.pc t = .user ∨ Serves t c σ₀.mem σ := by
  refine h.invariant (I := fun σ => σ.pc t = .user ∨ Serves t c σ₀.mem σ) ?_ ?_
  · rintro _ rfl
    exact .inr ⟨hc, rfl, hq⟩
  · rintro σ a σ' (huser | hI) hs hok
    · refine .inl ?_
      rwa [hs.pc_other]
      exact fun ha => hok t ha rfl huser
    · exact hI.step hs

/-- **What reads and writes return.**  In the run of a call from `σ₀` on: a write returns
    the number of bytes it has put into the pipe, which are all or those in front of the
    first that copyin does not give; or -1, if the read end is closed or the process
    killed.  A read returns the number of bytes it has taken and copied out, and not more
    than it was asked for; or -1, if the process is killed and it took nothing.  The
    indices of the pipe count the bytes sent and taken. -/
theorem call_results {σ₀ : PState T} (h : Reach code (Starts p) ok σ₀)
    (hcall : Reach code (· = σ₀) (Within t) σ) :
    (∀ src n, σ₀.pc t = .write src n → ∀ src' n' i r, σ.pc t = .writeReturn src' n' i r →
      src' = src ∧ n' = n ∧ Puts src n i ∧ (bytes src i).length = i ∧
        σ.mem.sentBy t = σ₀.mem.sentBy t ++ bytes src i ∧
        (r = i ∧ ((i : ℤ) = max n 0 ∨ src i = none) ∨
          r = -1 ∧ (σ.mem.readopen = false ∨ σ.killed t = true))) ∧
    (∀ dst n, σ₀.pc t = .read dst n → ∀ dst' n' got r, σ.pc t = .readReturn dst' n' got r →
      dst' = dst ∧ n' = n ∧
        (r = got.length ∧ Gets dst n got ∧ σ₀.mem.took σ.mem t dst got ∨
          r = -1 ∧ got = [] ∧ σ.killed t = true ∧ σ.mem.readBy t = σ₀.mem.readBy t)) ∧
    σ.mem.nwrite = UInt32.ofNat σ.mem.sent.length ∧
      σ.mem.nread = UInt32.ofNat (σ.mem.reads.flatMap Read.bytes ++ inflight σ).length := by
  have hr : Reach code (Starts p) (fun _ _ => True) σ :=
    hcall.invariant (I := Reach code (Starts p) fun _ _ => True)
      (by rintro _ rfl; exact h.mono fun _ _ _ => trivial)
      fun _ _ _ hr hs _ => .step hr hs fun _ _ => trivial
  refine ⟨fun src n hw src' n' i r ht => ?_, fun dst n hd dst' n' got r ht => ?_,
    (stream_of_reach hr).nwrite, (stream_of_reach hr).nread⟩
  · rcases serves_of_reach (c := .write src n) (by rw [hw]; rfl) (by rw [hw]; rfl) hcall with
      huser | ⟨hc, hwrites, hdone⟩
    · rw [ht] at huser; cases huser
    · rw [ht] at hc hdone
      cases hc
      have hsent := written_of_reach hr t
      have hsent₀ := written_of_reach h t
      rw [ht, hwrites] at hsent
      rw [hw, show (Point.write src n).written = [] from rfl, List.append_nil] at hsent₀
      exact ⟨rfl, rfl, hdone.1, bytes_length hdone.1.2, by rw [hsent, hsent₀]; rfl, hdone.2⟩
  · rcases serves_of_reach (c := .read dst n) (by rw [hd]; rfl) (by rw [hd]; rfl) hcall with
      huser | ⟨hc, -, hdone⟩
    · rw [ht] at huser; cases huser
    · rw [ht] at hc hdone
      cases hc
      exact ⟨rfl, rfl, hdone⟩

/-- The parent is in a call. -/
def inCall (σ : PState Proc) (_ : Proc) : Bool := (σ.pc .parent).call.isSome

/-- What the schedule `es` runs into, and from there the schedule `cs` of a call of the
    parent. -/
theorem reach_call (es cs : List (Event Proc (Act Proc))) (q q' : Point)
    (h : ((play pick (fun _ _ => true) es (start Proc.parent)).bind fun σ₀ : PState Proc =>
      (play pick inCall cs σ₀).map fun σ => (σ₀.pc Proc.parent, σ.pc Proc.parent)) = some (q, q')) :
    ∃ σ₀ σ, Reach code (Starts Proc.parent) (fun _ _ => True) σ₀ ∧
      Reach code (· = σ₀) (Within Proc.parent) σ ∧ σ₀.pc Proc.parent = q ∧
      σ.pc Proc.parent = q' := by
  have hrun : ∃ σ₀ σ, Reach code (Starts Proc.parent) (fun _ _ => True) σ₀ ∧
      Reach code (· = σ₀) (Within Proc.parent) σ ∧
      (σ₀.pc Proc.parent, σ.pc Proc.parent) = (q, q') :=
    reach_of_plays (fun _ _ _ => trivial) (fun σ t hb _ hpc => by rw [inCall, hpc] at hb; cases hb)
      (fun _ _ _ _ _ _ hi => pick_does hi) (start_starts Proc.parent) h
  obtain ⟨σ₀, σ, h₀, h, hpc⟩ := hrun
  exact ⟨σ₀, σ, h₀, h, Prod.mk.inj hpc⟩

def twoBytes (i : ℕ) : Option UInt8 := some (UInt8.ofNat i)

/-- The parent writes two bytes, and reads them. -/
theorem call_results_twoBytes :
    (∃ σ₀ σ : PState Proc, Reach code (Starts .parent) (fun _ _ => True) σ₀ ∧
      Reach code (· = σ₀) (Within .parent) σ ∧ σ₀.pc .parent = .write twoBytes 2 ∧
      σ.pc .parent = .writeReturn twoBytes 2 2 2 ∧
      σ.mem.sentBy .parent = σ₀.mem.sentBy .parent ++ [0, 1]) ∧
    ∃ (σ₀ σ : PState Proc) (dst : ℕ → Bool), Reach code (Starts .parent) (fun _ _ => True) σ₀ ∧
      Reach code (· = σ₀) (Within .parent) σ ∧ σ₀.pc .parent = .read dst 9 ∧
      σ.pc .parent = .readReturn dst 9 [0, 1] 2 ∧ σ₀.mem.took σ.mem .parent dst [0, 1] := by
  obtain ⟨σ₀, σ, h₀, h, hpc₀, hpc⟩ := reach_call [.go .parent (.write twoBytes 2)]
    (List.replicate 6 (.go .parent .none)) (.write twoBytes 2) (.writeReturn twoBytes 2 2 2) rfl
  obtain ⟨τ₀, τ, g₀, g, gpc₀, gpc⟩ := reach_call ([.go .parent (.write twoBytes 2)] ++
      List.replicate 7 (.go .parent .none) ++ [.go .parent (.read (fun _ => true) 9)])
    (List.replicate 7 (.go .parent .none)) (.read (fun _ => true) 9)
    (.readReturn (fun _ => true) 9 [0, 1] 2) rfl
  obtain ⟨-, -, -, -, hsent, -⟩ := (call_results h₀ h).1 _ _ hpc₀ _ _ _ _ hpc
  obtain ⟨-, -, ⟨-, -, htook⟩ | ⟨hr, -⟩⟩ := (call_results g₀ g).2.1 _ _ gpc₀ _ _ _ _ gpc
  · exact ⟨⟨σ₀, σ, h₀, h, hpc₀, hpc, hsent⟩, τ₀, τ, _, g₀, g, gpc₀, gpc, htook⟩
  · cases hr

end OSLabs.Pipe
