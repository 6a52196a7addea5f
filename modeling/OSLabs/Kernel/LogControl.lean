/-
  Who commits, and when there is room in the log.

  `Control` counts the operations in progress: none is while a process commits,
  and only one process commits.  Each operation in progress has reserved the
  blocks that it may still add (`Reserved`), so log_write finds room
  (`never_panics`).  begin_op sleeps only as long as it has to, and then there is a
  process to wake it up (`begins_blocked`).
-/
import OSLabs.Kernel.Log
import OSLabs.Lib.Tally

namespace OSLabs.Log

open Monitor

variable {L : Layout} {T : Type} {t : T} {q q' : Point} {m m' : Mem T}

/-! ## The instructions of each kind -/

section
variable [DecidableEq T]

inductive Acquires : Point → Point → Prop
  | begin : Acquires .begin .beginTest
  | logWrite {b} : Acquires (.logWrite b) (.logTest b)
  | endOp : Acquires .endOp .endDec
  | commit : Acquires .commitAcquire .commitDone

inductive Releases : Point → Point → Prop
  | begin : Releases .beginRelease .user
  | logWrite : Releases .logRelease .brelse
  | endUser : Releases (.endRelease false) .user
  | endCommit : Releases (.endRelease true) .commit
  | commit : Releases .commitRelease .user

inductive Wakes : Point → Point → Prop
  | endOp : Wakes .endWakeup (.endRelease false)
  | commit : Wakes .commitWakeup .commitRelease

inductive Runs (L : Layout) (t : T) (m : Mem T) : Point → Mem T → Point → Prop
  | begin : m.op t = none → Runs L t m .user m .begin
  | write {id b v} : m.op t = some id → ¬ L.InLog b →
      Runs L t m .user (m.change t id b v) (.logWrite b)
  | endOp {id} : m.op t = some id → Runs L t m .user m .endOp
  | evict {b} : m.pins b = 0 → (∀ t', m.buf t' ≠ some b) → Runs L t m .user (m.evict b) .user
  | beginWait : m.committing = true ∨ m.lh.length + (m.outstanding + 1) * 10 > 30 →
      Runs L t m .beginTest m .beginSleep
  | begun : m.committing = false → m.lh.length + (m.outstanding + 1) * 10 ≤ 30 →
      Runs L t m .beginTest (m.begin t) .beginRelease
  | tooBig {b} : m.lh.length ≥ 30 ∨ m.lh.length ≥ L.size - 1 → Runs L t m (.logTest b) m .panic
  | outside {b} : m.outstanding < 1 → Runs L t m (.logTest b) m .panic
  | log {b} : m.lh.length < 30 → m.lh.length < L.size - 1 → 1 ≤ m.outstanding →
      Runs L t m (.logTest b) (m.log t b) .logRelease
  | brelse : Runs L t m .brelse (m.brelse t) .user
  | endPanic : m.committing = true → Runs L t m .endDec (m.ended t) .panic
  | endCommit : m.committing = false → (m.ended t).outstanding = 0 →
      Runs L t m .endDec ((m.ended t).setCommitting true) (.endRelease true)
  | endWake : m.committing = false → (m.ended t).outstanding ≠ 0 →
      Runs L t m .endDec (m.ended t) .endWakeup
  | commit : m.lh ≠ [] → Runs L t m .commit m (.writeLog 0)
  | commitEmpty : m.lh = [] → Runs L t m .commit m .commitAcquire
  | writeLog {tail b} : m.lh[tail]? = some b →
      Runs L t m (.writeLog tail) (m.bwrite (L.slot tail) (m.cache b)) (.writeLog (tail + 1))
  | writeLogEnd {tail} : m.lh[tail]? = none → Runs L t m (.writeLog tail) m .writeHead
  | writeHead : Runs L t m .writeHead (m.writeHead L).commit (.install 0)
  | install {tail b} : m.lh[tail]? = some b →
      Runs L t m (.install tail) ((m.bwrite b (m.cache (L.slot tail))).bunpin b)
        (.install (tail + 1))
  | installEnd {tail} : m.lh[tail]? = none → Runs L t m (.install tail) m .erase
  | erase : Runs L t m .erase m.clear .eraseHead
  | eraseHead : Runs L t m .eraseHead (m.writeHead L) .commitAcquire
  | commitDone : Runs L t m .commitDone (m.setCommitting false) .commitWakeup

theorem Does.acquires (h : Does L t q m (.acquire q')) : Acquires q q' := by
  cases h with
  | code h =>
    cases q with
    | begin => cases h; exact .begin
    | logWrite b => cases h; exact .logWrite
    | endOp => cases h; exact .endOp
    | commitAcquire => cases h; exact .commit
    | _ =>
      unfold exec at h
      dsimp only at h
      repeat' split at h
      all_goals cases h

theorem Does.releases (h : Does L t q m (.release q')) : Releases q q' := by
  cases h with
  | code h =>
    cases q with
    | beginRelease => cases h; exact .begin
    | logRelease => cases h; exact .logWrite
    | endRelease commit =>
      cases h
      cases commit with
      | true => exact .endCommit
      | false => exact .endUser
    | commitRelease => cases h; exact .commit
    | _ =>
      unfold exec at h
      dsimp only at h
      repeat' split at h
      all_goals cases h

theorem Does.sleeps {k : Unit} (h : Does L t q m (.sleep k q')) :
    q = .beginSleep ∧ q' = .beginTest := by
  cases h with
  | code h =>
    cases q with
    | beginSleep => cases h; exact ⟨rfl, rfl⟩
    | _ =>
      unfold exec at h
      dsimp only at h
      repeat' split at h
      all_goals cases h

theorem Does.wakes {k : Unit} (h : Does L t q m (.wakeup k q')) : Wakes q q' := by
  cases h with
  | code h =>
    cases q with
    | endWakeup => cases h; exact .endOp
    | commitWakeup => cases h; exact .commit
    | _ =>
      unfold exec at h
      dsimp only at h
      repeat' split at h
      all_goals cases h

theorem Does.runs (h : Does L t q m (.run m' q')) : Runs L t m q m' q' := by
  cases h with
  | begin hop => exact .begin hop
  | write hop hb => exact .write hop hb
  | endOp hop => exact .endOp hop
  | evict hp hb => exact .evict hp hb
  | code h =>
    cases q with
    | beginTest =>
      simp only [exec] at h
      split_ifs at h with hc hl
      · cases h; exact .beginWait (.inl hc)
      · cases h; exact .beginWait (.inr hl)
      · cases h; exact .begun (by simpa using hc) (by omega)
    | logTest b =>
      simp only [exec] at h
      split_ifs at h with hl ho
      · cases h; exact .tooBig hl
      · cases h; exact .outside ho
      · obtain ⟨h₁, h₂⟩ := not_or.1 hl
        cases h; exact .log (by omega) (by omega) (by omega)
    | brelse => cases h; exact .brelse
    | endDec =>
      simp only [exec] at h
      split_ifs at h with hc ho
      · cases h; exact .endPanic hc
      · cases h; exact .endCommit (by simpa using hc) ho
      · cases h; exact .endWake (by simpa using hc) ho
    | commit =>
      simp only [exec] at h
      split_ifs at h with hl
      · cases h; exact .commit (List.ne_nil_of_length_pos hl)
      · cases h; exact .commitEmpty (List.length_eq_zero_iff.1 (by omega))
    | writeLog tail =>
      simp only [exec] at h
      split at h
      · rename_i b hb
        cases h; exact .writeLog hb
      · rename_i hb
        cases h; exact .writeLogEnd hb
    | writeHead => cases h; exact .writeHead
    | install tail =>
      simp only [exec] at h
      split at h
      · rename_i b hb
        cases h; exact .install hb
      · rename_i hb
        cases h; exact .installEnd hb
    | erase => cases h; exact .erase
    | eraseHead => cases h; exact .eraseHead
    | commitDone => cases h; exact .commitDone
    | _ => cases h

/-! ## The lock -/

/-- The lock of the log is held at these points. -/
def Point.held : Point → Bool
  | .beginTest => true
  | .beginSleep => true
  | .beginRelease => true
  | .logTest _ => true
  | .logRelease => true
  | .endDec => true
  | .endWakeup => true
  | .endRelease _ => true
  | .commitDone => true
  | .commitWakeup => true
  | .commitRelease => true
  | .panic => true
  | _ => false

theorem Runs.held (h : Runs L t m q m' q') : q'.held = q.held := by
  cases h <;> rfl

def discipline (L : Layout) : Discipline (code L (T := T)) where
  held := Point.held
  acquire h := by cases Does.acquires h <;> exact ⟨rfl, rfl⟩
  release h := by cases Does.releases h <;> exact ⟨rfl, rfl⟩
  run h := (Does.runs h).held
  sleep h := by obtain ⟨rfl, rfl⟩ := Does.sleeps h; exact ⟨rfl, rfl⟩
  wakeup h := by cases Does.wakes h <;> rfl

end

/-! ## Who commits -/

/-- The process is committing at these points. -/
def Point.commits : Point → Bool
  | .endRelease c => c
  | .commit => true
  | .writeLog _ => true
  | .writeHead => true
  | .install _ => true
  | .erase => true
  | .eraseHead => true
  | .commitAcquire => true
  | .commitDone => true
  | _ => false

/-- The process is in an operation at these points; where the log panics too. -/
def Point.inOp : Point → Bool
  | .panic => true
  | .beginRelease => true
  | .logWrite _ => true
  | .logTest _ => true
  | .logRelease => true
  | .brelse => true
  | .endOp => true
  | .endDec => true
  | _ => false

/-- The process is in no operation yet at these points. -/
def Point.noOp : Point → Bool
  | .begin => true
  | .beginTest => true
  | .beginSleep => true
  | _ => false

/-- The log is empty at these points of commit. -/
def Point.cleared : Point → Bool
  | .eraseHead => true
  | .commitAcquire => true
  | .commitDone => true
  | _ => false

/-- The process has an operation in progress. -/
def Mem.active (m : Mem T) (t : T) : ℕ := if (m.op t).isSome then 1 else 0

/-- **Operations and commits.** -/
structure Control [Fintype T] (m : Mem T) (pc : T → Point) : Prop where
  count : m.outstanding = ∑ t, m.active t
  idle : m.committing = true → m.outstanding = 0
  commits : ∀ t, (pc t).commits = true → m.committing = true
  unique : ∀ t t', (pc t).commits = true → (pc t').commits = true → t = t'
  committer : m.committing = true → ∃ t, (pc t).commits = true
  inOp : ∀ t, (pc t).inOp = true → m.op t ≠ none
  noOp : ∀ t, (pc t).noOp = true → m.op t = none
  cleared : ∀ t, (pc t).cleared = true → m.lh = []
  rest : m.lh ≠ [] → m.committing = true ∨ 1 ≤ m.outstanding

theorem active_eq_one (h : m.op t ≠ none) : m.active t = 1 :=
  if_pos (Option.isSome_iff_ne_none.2 h)

theorem active_eq_zero (h : m.op t = none) : m.active t = 0 := by
  rw [Mem.active, h]; rfl

section
variable [Fintype T] {pc : T → Point}

/-- While a process commits, no operation is in progress. -/
theorem Control.op_eq_none (h : Control m pc) (hc : m.committing = true) (t : T) :
    m.op t = none := by
  by_contra hop
  have hle := Tally.le_sum m.active t
  rw [active_eq_one hop, ← h.count, h.idle hc] at hle
  omega

theorem Control.outstanding_pos (h : Control m pc) (hop : m.op t ≠ none) : 1 ≤ m.outstanding := by
  rw [h.count, ← active_eq_one hop]
  exact Tally.le_sum m.active t

/-- While an operation is in progress, no process commits. -/
theorem Control.committing_eq_false (h : Control m pc) (hop : m.op t ≠ none) :
    m.committing = false := by
  by_contra hc
  exact hop (h.op_eq_none (by simpa using hc) t)

variable [DecidableEq T]

/-- What a process shows that moves on to `q'`. -/
theorem Control.move (h : Control m pc) (hcount : m'.outstanding = ∑ t, m'.active t)
    (hidle : m'.committing = true → m'.outstanding = 0)
    (hothers : ∀ t' ≠ t, (pc t').commits = true → m'.committing = true)
    (hcommits : q'.commits = true → m'.committing = true ∧ ∀ t' ≠ t, (pc t').commits = false)
    (hcommitter : m'.committing = true → q'.commits = true ∨ ∃ t' ≠ t, (pc t').commits = true)
    (hop : ∀ t' ≠ t, m'.op t' = m.op t') (hinOp : q'.inOp = true → m'.op t ≠ none)
    (hnoOp : q'.noOp = true → m'.op t = none)
    (hcleared : ∀ t' ≠ t, (pc t').cleared = true → m'.lh = [])
    (hclear : q'.cleared = true → m'.lh = [])
    (hrest : m'.lh ≠ [] → m'.committing = true ∨ 1 ≤ m'.outstanding) :
    Control m' (Function.update pc t q') := by
  have hself : Function.update pc t q' t = q' := Function.update_self ..
  have hother : ∀ t' ≠ t, Function.update pc t q' t' = pc t' :=
    fun t' ht' => Function.update_of_ne ht' ..
  constructor
  · exact hcount
  · exact hidle
  · intro t' hc
    by_cases ht : t' = t
    · subst ht; rw [hself] at hc; exact (hcommits hc).1
    · rw [hother t' ht] at hc; exact hothers t' ht hc
  · intro t₁ t₂ h₁ h₂
    by_cases ht₁ : t₁ = t <;> by_cases ht₂ : t₂ = t
    · exact ht₁.trans ht₂.symm
    · subst ht₁
      rw [hself] at h₁; rw [hother t₂ ht₂] at h₂
      rw [(hcommits h₁).2 t₂ ht₂] at h₂; cases h₂
    · subst ht₂
      rw [hself] at h₂; rw [hother t₁ ht₁] at h₁
      rw [(hcommits h₂).2 t₁ ht₁] at h₁; cases h₁
    · rw [hother t₁ ht₁] at h₁; rw [hother t₂ ht₂] at h₂
      exact h.unique t₁ t₂ h₁ h₂
  · intro hc
    rcases hcommitter hc with hq | ⟨t', ht', hq⟩
    · exact ⟨t, by rw [hself]; exact hq⟩
    · exact ⟨t', by rw [hother t' ht']; exact hq⟩
  · intro t' hi
    by_cases ht : t' = t
    · subst ht; rw [hself] at hi; exact hinOp hi
    · rw [hother t' ht] at hi; rw [hop t' ht]; exact h.inOp t' hi
  · intro t' hn
    by_cases ht : t' = t
    · subst ht; rw [hself] at hn; exact hnoOp hn
    · rw [hother t' ht] at hn; rw [hop t' ht]; exact h.noOp t' hn
  · intro t' hc
    by_cases ht : t' = t
    · subst ht; rw [hself] at hc; exact hclear hc
    · rw [hother t' ht] at hc; exact hcleared t' ht hc
  · exact hrest

/-- A process moves on, and leaves the counters and the log header alone. -/
theorem Control.same (h : Control m pc) (hpc : pc t = q) (hout : m'.outstanding = m.outstanding)
    (hcom : m'.committing = m.committing) (hop : m'.op = m.op) (hlh : m'.lh = m.lh)
    (hcommits : q'.commits = q.commits) (hinOp : q'.inOp = true → m.op t ≠ none)
    (hnoOp : q'.noOp = true → m.op t = none) (hclear : q'.cleared = true → m.lh = []) :
    Control m' (Function.update pc t q') := by
  subst hpc
  have hactive : m'.active = m.active := by
    funext t'; simp only [Mem.active, hop]
  refine h.move ?_ ?_ ?_ ?_ ?_ ?_ ?_ ?_ ?_ ?_ ?_
  · rw [hout, hactive]; exact h.count
  · rw [hcom, hout]; exact h.idle
  · intro t' _ hc; rw [hcom]; exact h.commits t' hc
  · intro hc
    rw [hcommits] at hc
    refine ⟨by rw [hcom]; exact h.commits t hc, fun t' ht' => ?_⟩
    by_contra hc'
    exact ht' (h.unique t' t (by simpa using hc') hc)
  · intro hc
    rw [hcom] at hc
    obtain ⟨t', ht'⟩ := h.committer hc
    by_cases htt : t' = t
    · subst htt; exact .inl (hcommits.trans ht')
    · exact .inr ⟨t', htt, ht'⟩
  · intro t' _; rw [hop]
  · intro hi; rw [hop]; exact hinOp hi
  · intro hn; rw [hop]; exact hnoOp hn
  · intro t' _ hc; rw [hlh]; exact h.cleared t' hc
  · intro hc; rw [hlh]; exact hclear hc
  · rw [hlh, hcom, hout]; exact h.rest

/-- An operation begins. -/
theorem Control.begin (h : Control m pc) (hpc : pc t = .beginTest) (hc : m.committing = false) :
    Control (m.begin t) (Function.update pc t .beginRelease) := by
  have hop : m.op t = none := h.noOp t (by rw [hpc]; rfl)
  have hnone : ∀ t', (pc t').commits ≠ true := fun t' ht' => by
    rw [h.commits t' ht'] at hc; cases hc
  refine h.move ?_ ?_ ?_ ?_ ?_ ?_ ?_ ?_ ?_ ?_ ?_
  · have hsum := Tally.sum_move m.active (m.begin t).active t fun t' ht' => by
      simp only [Mem.active, Mem.begin, Function.update_of_ne ht']
    rw [active_eq_zero hop, active_eq_one (m := m.begin t) (by simp [Mem.begin])] at hsum
    have := h.count
    simp only [Mem.begin] at *
    omega
  · intro hc'; rw [show (m.begin t).committing = m.committing from rfl, hc] at hc'; cases hc'
  · intro t' _ hc'; exact absurd hc' (hnone t')
  · intro hc'; cases hc'
  · intro hc'; rw [show (m.begin t).committing = m.committing from rfl, hc] at hc'; cases hc'
  · intro t' ht'; exact Function.update_of_ne ht' ..
  · intro _; simp [Mem.begin]
  · intro hn; cases hn
  · intro t' _ hcl; exact h.cleared t' hcl
  · intro hcl; cases hcl
  · intro _; exact .inr (Nat.le_add_left 1 _)

theorem Control.count_ended (h : Control m pc) (hop : m.op t ≠ none) :
    (m.ended t).outstanding = ∑ t', (m.ended t).active t' := by
  have hsum := Tally.sum_move m.active (m.ended t).active t fun t' ht' => by
    simp only [Mem.active, Mem.ended, Function.update_of_ne ht']
  rw [active_eq_one hop, active_eq_zero (m := m.ended t) (by simp [Mem.ended])] at hsum
  have := h.count
  simp only [Mem.ended] at *
  omega

/-- An operation ends, and others are in progress. -/
theorem Control.endWake (h : Control m pc) (hpc : pc t = .endDec) (hc : m.committing = false)
    (hout : (m.ended t).outstanding ≠ 0) :
    Control (m.ended t) (Function.update pc t .endWakeup) := by
  have hop : m.op t ≠ none := h.inOp t (by rw [hpc]; rfl)
  have hnone : ∀ t', (pc t').commits ≠ true := fun t' ht' => by
    rw [h.commits t' ht'] at hc; cases hc
  have hc' : (m.ended t).committing = false := hc
  refine h.move (h.count_ended hop) ?_ ?_ ?_ ?_ ?_ ?_ ?_ ?_ ?_ ?_
  · intro hct; rw [hc'] at hct; cases hct
  · intro t' _ hct; exact absurd hct (hnone t')
  · intro hct; cases hct
  · intro hct; rw [hc'] at hct; cases hct
  · intro t' ht'; exact Function.update_of_ne ht' ..
  · intro hi; cases hi
  · intro hn; cases hn
  · intro t' _ hcl; exact h.cleared t' hcl
  · intro hcl; cases hcl
  · intro _; exact .inr (Nat.pos_of_ne_zero hout)

/-- The last operation ends, and its process commits. -/
theorem Control.endCommit (h : Control m pc) (hpc : pc t = .endDec) (hc : m.committing = false)
    (hout : (m.ended t).outstanding = 0) :
    Control ((m.ended t).setCommitting true) (Function.update pc t (.endRelease true)) := by
  have hop : m.op t ≠ none := h.inOp t (by rw [hpc]; rfl)
  have hnone : ∀ t', (pc t').commits = false := fun t' => by
    by_contra ht'
    rw [h.commits t' (by simpa using ht')] at hc; cases hc
  refine h.move (h.count_ended hop) ?_ ?_ ?_ ?_ ?_ ?_ ?_ ?_ ?_ ?_
  · intro _; exact hout
  · intro _ _ _; rfl
  · intro _; exact ⟨rfl, fun t' _ => hnone t'⟩
  · intro _; exact .inl rfl
  · intro t' ht'; exact Function.update_of_ne ht' ..
  · intro hi; cases hi
  · intro hn; cases hn
  · intro t' _ hcl; exact h.cleared t' hcl
  · intro hcl; cases hcl
  · intro _; exact .inl rfl

/-- The commit is over. -/
theorem Control.done (h : Control m pc) (hpc : pc t = .commitDone) :
    Control (m.setCommitting false) (Function.update pc t .commitWakeup) := by
  have hct : (pc t).commits = true := by rw [hpc]; rfl
  have hlh : m.lh = [] := h.cleared t (by rw [hpc]; rfl)
  have hop := h.op_eq_none (h.commits t hct)
  have hothers : ∀ t' ≠ t, (pc t').commits ≠ true := fun t' ht' hc => ht' (h.unique t' t hc hct)
  refine h.move h.count ?_ ?_ ?_ ?_ ?_ ?_ ?_ ?_ ?_ ?_
  · intro hc; cases hc
  · intro t' ht' hc; exact absurd hc (hothers t' ht')
  · intro hc; cases hc
  · intro hc; cases hc
  · intro t' _; rfl
  · intro hi; cases hi
  · intro hn; cases hn
  · intro _ _ _; exact hlh
  · intro hcl; cases hcl
  · intro hne; exact absurd hlh hne

/-- **A run keeps the control invariant.** -/
theorem Runs.control (hr : Runs L t m q m' q') (hpc : pc t = q) (h : Control m pc) :
    Control m' (Function.update pc t q') := by
  have hid : pc t = .user → Function.update pc t .user = pc := by
    intro hu; rw [← hu, Function.update_eq_self]
  have hin : q.inOp = true → m.op t ≠ none := fun hi => h.inOp t (by rw [hpc]; exact hi)
  have hno : q.noOp = true → m.op t = none := fun hn => h.noOp t (by rw [hpc]; exact hn)
  cases hr with
  | begin hop =>
    exact h.same hpc rfl rfl rfl rfl rfl (absurd · Bool.false_ne_true) (fun _ => hop)
      (by simp [Point.cleared])
  | write hop hb =>
    exact h.same hpc rfl rfl rfl rfl rfl (by simp [hop]) (by simp [Point.noOp])
      (by simp [Point.cleared])
  | endOp hop =>
    exact h.same hpc rfl rfl rfl rfl rfl (by simp [hop]) (by simp [Point.noOp])
      (by simp [Point.cleared])
  | evict hp hb =>
    exact h.same hpc rfl rfl rfl rfl rfl (absurd · Bool.false_ne_true)
      (by simp [Point.noOp]) (by simp [Point.cleared])
  | beginWait =>
    exact h.same hpc rfl rfl rfl rfl rfl (absurd · Bool.false_ne_true) (fun _ => hno rfl)
      (by simp [Point.cleared])
  | begun hc hl => exact h.begin hpc hc
  | tooBig | outside =>
    exact h.same hpc rfl rfl rfl rfl rfl (fun _ => hin rfl) (by simp [Point.noOp])
      (by simp [Point.cleared])
  | @log b h₁ h₂ h₃ =>
    have hop := hin rfl
    have hc := h.committing_eq_false hop
    have hnone : ∀ t', (pc t').commits ≠ true := fun t' ht' => by
      rw [h.commits t' ht'] at hc; cases hc
    have hcl : ∀ t', (pc t').cleared = true → (pc t').commits = true := fun t' => by
      cases pc t' <;> simp [Point.cleared, Point.commits]
    have hm : (m.log t b).outstanding = m.outstanding ∧ (m.log t b).committing = m.committing ∧
        (m.log t b).op = m.op := by
      unfold Mem.log; split_ifs <;> exact ⟨rfl, rfl, rfl⟩
    obtain ⟨hmo, hmc, hmop⟩ := hm
    have hactive : (m.log t b).active = m.active := by
      funext t'; simp only [Mem.active, hmop]
    refine h.move ?_ ?_ ?_ ?_ ?_ ?_ ?_ ?_ ?_ ?_ ?_
    · rw [hmo, hactive]; exact h.count
    · rw [hmc, hmo]; exact h.idle
    · intro t' _ hct; exact absurd hct (hnone t')
    · intro hct; cases hct
    · intro hct; rw [hmc, hc] at hct; cases hct
    · intro t' _; rw [hmop]
    · intro _; rw [hmop]; exact hop
    · intro hn; cases hn
    · intro t' _ ht'; exact absurd (hcl t' ht') (hnone t')
    · intro hn; cases hn
    · intro _; rw [hmo]; exact .inr h₃
  | brelse =>
    exact h.same hpc rfl rfl rfl rfl rfl (absurd · Bool.false_ne_true)
      (by simp [Point.noOp]) (by simp [Point.cleared])
  | endPanic hc => exact absurd (h.op_eq_none hc t) (hin rfl)
  | endCommit hc ho => exact h.endCommit hpc hc ho
  | endWake hc ho => exact h.endWake hpc hc ho
  | commitEmpty hl =>
    exact h.same hpc rfl rfl rfl rfl rfl (absurd · Bool.false_ne_true)
      (by simp [Point.noOp]) (fun _ => hl)
  | commit | writeLog | writeLogEnd | writeHead | install | installEnd =>
    exact h.same hpc rfl rfl rfl rfl rfl (absurd · Bool.false_ne_true) (by simp [Point.noOp])
      (by simp [Point.cleared])
  | erase =>
    have hct : (pc t).commits = true := by rw [hpc]; rfl
    have hc := h.commits t hct
    refine h.move h.count h.idle (fun t' _ hc' => h.commits t' hc') ?_ (fun _ => .inl rfl)
      (fun _ _ => rfl) (absurd · Bool.false_ne_true) (by simp [Point.noOp]) (fun _ _ _ => rfl)
      (fun _ => rfl) (fun hne => absurd rfl hne)
    intro _
    refine ⟨hc, fun t' ht' => ?_⟩
    by_contra hc'
    exact ht' (h.unique t' t (by simpa using hc') hct)
  | eraseHead =>
    exact h.same hpc rfl rfl rfl rfl rfl (absurd · Bool.false_ne_true) (by simp [Point.noOp])
      (fun _ => h.cleared t (by rw [hpc]; rfl))
  | commitDone => exact h.done hpc

/-- The process stays in commit, or outside, and needs no more than it did. -/
structure Point.Follows (q q' : Point) : Prop where
  commits : q'.commits = q.commits
  inOp : q'.inOp = true → q.inOp = true
  noOp : q'.noOp = true → q.noOp = true
  cleared : q'.cleared = true → q.cleared = true

theorem Acquires.follows (h : Acquires q q') : q.Follows q' := by
  cases h <;> exact ⟨rfl, id, id, id⟩

theorem Releases.follows (h : Releases q q') : q.Follows q' := by
  cases h <;> exact ⟨rfl, by decide, by decide, by decide⟩

theorem Wakes.follows (h : Wakes q q') : q.Follows q' := by
  cases h <;> exact ⟨rfl, by decide, by decide, by decide⟩

theorem Control.follow (h : Control m pc) (hf : (pc t).Follows q') :
    Control m (Function.update pc t q') :=
  h.same rfl rfl rfl rfl rfl hf.commits (fun hi => h.inOp t (hf.inOp hi))
    (fun hn => h.noOp t (hf.noOp hn)) fun hc => h.cleared t (hf.cleared hc)

variable {d : Disk} {σ σ' : LState T} {ok : LState T → T → Prop}

theorem Control.step (h : Control σ.mem σ.pc) {a : Option T} (hs : Step (code L) σ a σ') :
    Control σ'.mem σ'.pc := by
  cases hs with
  | acquire _ hi _ => exact h.follow (Does.acquires hi).follows
  | release _ hi _ => exact h.follow (Does.releases hi).follows
  | @sleep t k q _ hi _ =>
    obtain ⟨hq, rfl⟩ := Does.sleeps hi
    refine h.follow ?_
    rw [hq]; exact ⟨rfl, by decide, by decide, by decide⟩
  | wakeup _ hi => exact h.follow (Does.wakes hi).follows
  | resume => exact h
  | kill => exact h
  | run _ hi => exact (Does.runs hi).control rfl h

omit [DecidableEq T] in
theorem Starts.control (h : Starts L d σ) : Control σ.mem σ.pc := by
  have hpc : ∀ t, σ.pc t = .user := h.pc
  rw [h.mem]
  constructor
  · simp [Mem.booted, Mem.active]
  · intro _; rfl
  · intro t hc; rw [hpc] at hc; cases hc
  · intro t _ hc; rw [hpc] at hc; cases hc
  · intro hc; cases hc
  · intro t hi; rw [hpc] at hi; cases hi
  · intro t _; rfl
  · intro _ _; rfl
  · intro hne; exact absurd rfl hne

theorem control_of_reach (h : Reach (code L) (Starts L d) ok σ) : Control σ.mem σ.pc :=
  h.invariant (I := fun σ => Control σ.mem σ.pc) (fun _ hi => hi.control)
    fun _ _ _ hC hs _ => hC.step hs

/-! ## Room in the log -/

/-- The blocks that the operation of a process may still add. -/
def Mem.room (m : Mem T) (t : T) : ℕ := if (m.op t).isSome then 10 - m.used t else 0

/-- The log has room for all operations in progress. -/
def Mem.Reserved (m : Mem T) : Prop := m.lh.length + ∑ t, m.room t ≤ 30

/-- Before a log_write, the operation has added at most `k` blocks. -/
def Thrifty (k : ℕ) (σ : LState T) (t : T) : Prop := ∀ b, σ.pc t = .logTest b → σ.mem.used t ≤ k

omit [DecidableEq T] [Fintype T] in
theorem room_le_active (m : Mem T) (t : T) : m.room t ≤ 10 * m.active t := by
  unfold Mem.room Mem.active
  split_ifs
  · omega
  · omega

theorem Mem.Reserved.begin (h : Control m pc) (hop : m.op t = none)
    (hl : m.lh.length + (m.outstanding + 1) * 10 ≤ 30) : (m.begin t).Reserved := by
  have hsum := Tally.sum_move m.room (m.begin t).room t fun t' ht' => by
    simp only [Mem.room, Mem.begin, Function.update_of_ne ht']
  have hroom : m.room t = 0 := by simp [Mem.room, hop]
  have hroom' : (m.begin t).room t = 10 := by simp [Mem.room, Mem.begin]
  have hle : ∑ t, m.room t ≤ 10 * m.outstanding := by
    rw [h.count]
    exact Tally.sum_le_mul (room_le_active m)
  unfold Mem.Reserved
  rw [hroom, hroom'] at hsum
  simp only [Mem.begin] at *
  omega

theorem Mem.Reserved.log (h : m.Reserved) (hop : m.op t ≠ none) (hu : m.used t ≤ 9) (b : UInt32) :
    (m.log t b).Reserved := by
  unfold Mem.log
  split_ifs with hb
  · exact h
  · generalize hm' : ({ m with
      lh := m.lh ++ [b]
      pins := Function.update m.pins b (m.pins b + 1)
      used := Function.update m.used t (m.used t + 1) } : Mem T) = m'
    have hsum := Tally.sum_move m.room m'.room t fun t' ht' => by
      subst hm'; simp only [Mem.room, Function.update_of_ne ht']
    have hsome : (m.op t).isSome = true := Option.isSome_iff_ne_none.2 hop
    have hroom : m.room t = 10 - m.used t := if_pos hsome
    have hroom' : m'.room t = 10 - (m.used t + 1) := by
      subst hm'; simp [Mem.room, hsome]
    have hlen : m'.lh.length = m.lh.length + 1 := by subst hm'; simp
    unfold Mem.Reserved at *
    omega

theorem Mem.Reserved.ended (h : m.Reserved) : (m.ended t).Reserved := by
  have hle : ∑ t', (m.ended t).room t' ≤ ∑ t', m.room t' := by
    refine Finset.sum_le_sum fun t' _ => ?_
    unfold Mem.room Mem.ended
    by_cases ht : t' = t
    · subst ht; simp
    · simp [ht]
  unfold Mem.Reserved at *
  simp only [Mem.ended] at *
  omega

theorem Runs.reserved (hr : Runs L t m q m' q') (hpc : pc t = q) (hc : Control m pc)
    (hu : ∀ b, q = .logTest b → m.used t ≤ 9) (h : m.Reserved) : m'.Reserved := by
  cases hr with
  | begun _ hl => exact Mem.Reserved.begin hc (hc.noOp t (by rw [hpc]; rfl)) hl
  | log => exact h.log (hc.inOp t (by rw [hpc]; rfl)) (hu _ rfl) _
  | endPanic | endCommit | endWake => exact h.ended
  | erase => exact Nat.le_trans (Nat.add_le_add_right (Nat.zero_le _) _) h
  | _ => exact h

theorem reserved_of_reach {k : ℕ} (hk : k ≤ 9) (h : Reach (code L) (Starts L d) (Thrifty k) σ) :
    σ.mem.Reserved := by
  refine h.invariant_of (I := fun σ => Control σ.mem σ.pc) (J := fun σ => σ.mem.Reserved)
    (fun _ hr => control_of_reach hr) (fun σ hi => ?_) ?_
  · rw [hi.mem]
    simp [Mem.Reserved, Mem.room, Mem.booted]
  · intro σ a σ' hC hJ hs hok
    cases hs with
    | @run t m q _ hi =>
      exact (Does.runs hi).reserved rfl hC (fun b hb => Nat.le_trans (hok t rfl b hb) hk) hJ
    | _ => exact hJ

theorem Acquires.next_ne (h : Acquires q q') : q' ≠ .panic ∧ q' ≠ .beginSleep := by
  cases h <;> exact ⟨Point.noConfusion, Point.noConfusion⟩

theorem Releases.next_ne (h : Releases q q') : q' ≠ .panic ∧ q' ≠ .beginSleep := by
  cases h <;> exact ⟨Point.noConfusion, Point.noConfusion⟩

theorem Wakes.next_ne (h : Wakes q q') : q' ≠ .panic ∧ q' ≠ .beginSleep := by
  cases h <;> exact ⟨Point.noConfusion, Point.noConfusion⟩

/-- **The log does not panic**: if before each log_write its operation has added at
    most `k` blocks, where `k + 21` is less than the size of the log, then the log has
    room for the block; log_write is only called in operations, and no operation
    ends while a process commits. -/
theorem never_panics {k : ℕ} (hk : k ≤ 9) (hsize : k + 21 < L.size)
    (h : Reach (code L) (Starts L d) (Thrifty k) σ) (t : T) : σ.pc t ≠ .panic := by
  refine h.invariant_of
    (I := fun σ => Control σ.mem σ.pc ∧ σ.mem.Reserved) (J := fun σ => ∀ t, σ.pc t ≠ .panic)
    (fun _ hr => ⟨control_of_reach hr, reserved_of_reach hk hr⟩)
    (fun σ hi t => by rw [hi.pc]; exact Point.noConfusion) ?_ t
  intro σ a σ' ⟨hC, hR⟩ hJ hs hok t'
  have hmove : ∀ {t : T} {q : Point}, σ'.pc = Function.update σ.pc t q → q ≠ .panic →
      σ'.pc t' ≠ .panic := by
    intro t q hpc hq
    rw [hpc, Function.update_apply]
    split_ifs
    · exact hq
    · exact hJ t'
  cases hs with
  | acquire _ hi _ => exact hmove rfl (Does.acquires hi).next_ne.1
  | release _ hi _ => exact hmove rfl (Does.releases hi).next_ne.1
  | sleep _ hi _ => exact hmove rfl (by rw [(Does.sleeps hi).2]; exact Point.noConfusion)
  | wakeup _ hi => exact hmove rfl (Does.wakes hi).next_ne.1
  | resume => exact hJ t'
  | kill => exact hJ t'
  | @run t m q _ hi =>
    refine hmove rfl ?_
    rintro rfl
    have hr := Does.runs hi
    have hin : (σ.pc t).inOp = true → σ.mem.op t ≠ none := hC.inOp t
    have hused : ∀ b, σ.pc t = .logTest b → σ.mem.used t ≤ k := hok t rfl
    generalize σ.pc t = q₀ at hr hin hused
    cases hr with
    | @tooBig b hfull =>
      have hop := hin rfl
      have hu := hused b rfl
      have hroom : σ.mem.room t = 10 - σ.mem.used t := if_pos (Option.isSome_iff_ne_none.2 hop)
      have hle := Tally.le_sum σ.mem.room t
      unfold Mem.Reserved at hR
      omega
    | @outside b hout =>
      have := hC.outstanding_pos (hin rfl)
      omega
    | endPanic hc => exact hin rfl (hC.op_eq_none hc t)

def thrifty (k : ℕ) (σ : LState T) (t : T) : Bool :=
  match σ.pc t with
  | .logTest _ => decide (σ.mem.used t ≤ k)
  | _ => true

omit [DecidableEq T] [Fintype T] in
theorem thrifty_sound {k : ℕ} {σ : LState T} {t : T} (h : thrifty k σ t = true) :
    Thrifty k σ t := by
  intro b hq
  rw [thrifty, hq] at h
  exact of_decide_eq_true h

/-- A process begins an operation. -/
def beginOp {T : Type} (t : T) : List (Event T Act) :=
  [.go t .begin, .go t .none, .go t .none, .go t .none]

/-- A process writes `k` blocks from `b` on. -/
def writeBlocks {T : Type} (t : T) (b k : ℕ) : List (Event T Act) :=
  (List.range k).flatMap fun i =>
    [.go t (.write (UInt32.ofNat (b + i)) fun _ => 7), .go t .none, .go t .none, .go t .none,
      .go t .none]

theorem never_panics_write : ∃ σ : LState (Fin 1),
    Reach (code mkfs) (Starts mkfs blank) (Thrifty 8) σ ∧
    σ.mem.lh.length = 9 ∧ σ.pc 0 ≠ .panic := by
  have hplay : (play (pick mkfs) (thrifty 8) (beginOp 0 ++ writeBlocks 0 50 9)
      (start (T := Fin 1) blank)).map (fun σ => σ.mem.lh.length) = some 9 := by decide +kernel
  obtain ⟨σ, hr, hf⟩ := reach_play mkfs (blank_empty _) _ (fun _ _ h => thrifty_sound h) hplay
  exact ⟨σ, hr, hf, never_panics (by decide) (by decide) hr 0⟩

/-- The log that mkfs makes is too small for its reservations: three operations that
    add 10 blocks each, as many as MAXOPBLOCKS allows, panic. -/
theorem mkfs_panics : ∃ σ : LState (Fin 3), Reach (code mkfs) (Starts mkfs blank) (Thrifty 9) σ ∧
    σ.pc 2 = .panic := by
  have hplay : (play (pick mkfs) (thrifty 9)
      (beginOp 0 ++ beginOp 1 ++ beginOp 2 ++ writeBlocks 0 50 10 ++ writeBlocks 1 60 10 ++
        writeBlocks 2 70 9 ++ [.go 2 (.write 79 fun _ => 7), .go 2 .none, .go 2 .none])
      (start (T := Fin 3) blank)).map (fun σ => σ.pc 2) = some .panic := by decide +kernel
  obtain ⟨σ, hr, hf⟩ := reach_play mkfs (blank_empty _) _ (fun _ _ h => thrifty_sound h) hplay
  exact ⟨σ, hr, hf⟩

/-! ## No lost wakeups -/

/-- Why begin_op sleeps. -/
def Mem.Blocked (m : Mem T) : Prop :=
  m.committing = true ∨ m.lh.length + (m.outstanding + 1) * 10 > 30

/-- The points at which a process still has to wake up the others. -/
def Point.owes : Point → Prop
  | .endWakeup => True
  | .commitWakeup => True
  | _ => False

omit [Fintype T] in
theorem Runs.not_owes (h : Runs L t m q m' q') : ¬ q.owes := by cases h <;> exact id

omit [Fintype T] in
/-- What unblocks begin_op is followed by a wakeup. -/
theorem Runs.blocked (h : Runs L t m q m' q') (hc : q.commits = true → m.committing = true)
    (hb : m.Blocked) : m'.Blocked ∨ q'.owes := by
  cases h with
  | begun hc' hl =>
    rcases hb with hb | hb
    · rw [hc'] at hb; cases hb
    · omega
  | @log b =>
    left
    unfold Mem.log
    split_ifs
    · exact hb
    · refine hb.imp_right fun hb => ?_
      simp only [List.length_append, List.length_singleton]
      omega
  | endPanic hc' => exact .inl (.inl hc')
  | endCommit => exact .inl (.inl rfl)
  | endWake => exact .inr trivial
  | erase => exact .inl (.inl (hc rfl))
  | commitDone => exact .inr trivial
  | _ => exact .inl hb

omit [Fintype T] in
theorem Starts.start (h : Starts L d σ) : (discipline L).Start σ :=
  ⟨h.owner, h.ctx, fun t => by rw [h.pc]; rfl⟩

omit [Fintype T] in
theorem inv_of_reach (h : Reach (code L) (Starts L d) ok σ) : (discipline L).Inv σ :=
  (discipline L).inv_of_reach (fun _ hi => hi.start) h

/-- begin_op only goes to sleep when it is blocked. -/
theorem blocked_of_beginSleep (h : Reach (code L) (Starts L d) ok σ) :
    ∀ t, σ.pc t = .beginSleep → σ.mem.Blocked := by
  refine h.invariant_of (J := fun σ => ∀ t, σ.pc t = .beginSleep → σ.mem.Blocked)
    (I := fun σ => (discipline L).Inv σ ∧ Control σ.mem σ.pc ∧
      ∀ t, σ.ctx t ≠ .awake → σ.pc t = .beginTest)
    (fun σ hr => ⟨inv_of_reach hr, control_of_reach hr, ?_⟩)
    (fun σ hi t hq => by rw [hi.pc] at hq; cases hq) ?_
  · exact hr.parked (fun _ hi => hi.ctx) fun _ _ _ _ _ _ hi => (Does.sleeps hi).2
  intro σ a σ' ⟨hD, hC, hparked⟩ hJ hs _ t' ht'
  have hother : ∀ {t : T} {q : Point}, σ'.pc = Function.update σ.pc t q → q ≠ .beginSleep →
      t' ≠ t ∧ σ.pc t' = .beginSleep := by
    intro t q hpc hq
    have htt : t' ≠ t := by
      rintro rfl; rw [hpc, Function.update_self] at ht'; exact hq ht'
    exact ⟨htt, by rwa [hpc, Function.update_of_ne htt] at ht'⟩
  cases hs with
  | acquire _ hi _ => exact hJ t' (hother rfl (Does.acquires hi).next_ne.2).2
  | release _ hi _ => exact hJ t' (hother rfl (Does.releases hi).next_ne.2).2
  | sleep _ hi _ =>
    refine hJ t' (hother rfl ?_).2
    rw [(Does.sleeps hi).2]; exact Point.noConfusion
  | wakeup _ hi => exact hJ t' (hother rfl (Does.wakes hi).next_ne.2).2
  | resume => exact hJ t' ht'
  | kill => exact hJ t' ht'
  | @run t m q hc hi =>
    have hr := Does.runs hi
    by_cases hq : q = .beginSleep
    · subst hq
      by_cases htt : t' = t
      · generalize σ.pc t = q₀ at hr
        cases hr with
        | beginWait hb => exact hb
      · rw [State.goto_pc, Function.update_of_ne htt] at ht'
        have hb := hJ t' ht'
        generalize σ.pc t = q₀ at hr
        cases hr with
        | beginWait => exact hb
    · obtain ⟨htt, hq'⟩ := hother rfl hq
      rcases hr.blocked (hC.commits t) (hJ t' hq') with hb | ho
      · exact hb
      · -- the lock belongs to the process that is about to sleep
        have hawake : σ.ctx t' = .awake := by
          by_contra ha
          rw [hparked t' ha] at hq'; cases hq'
        have hheld : (σ.pc t).held = true := by
          rw [← hr.held]
          cases q with
          | endWakeup => rfl
          | commitWakeup => rfl
          | _ => exact ho.elim
        exact absurd (hD.exclusive hawake hc (by rw [hq']; rfl) hheld) htt

def sleepers (L : Layout) : Sleepers (discipline L (T := T)) (fun σ => Control σ.mem σ.pc ∧
    ∀ t, σ.pc t = .beginSleep → σ.mem.Blocked) fun _ _ => True where
  blocked _ _ m := m.Blocked
  owes q _ := q.owes
  held {q k} ho := by cases q <;> first | rfl | exact ho.elim
  release {σ t q} _ hi k := by
    have hr := Does.releases hi
    generalize σ.pc t = q₀ at hr
    cases hr <;> exact id
  run {σ t m q} hI _ hi t' k _ := by
    have hr := Does.runs hi
    exact ⟨hr.blocked (hI.1.commits t), fun ho => absurd ho hr.not_owes⟩
  sleep {σ t k q} hI _ hi := by
    have hq := (Does.sleeps hi).1
    exact ⟨hI.2 t hq, fun _ => by rw [hq]; exact id⟩
  wakeup _ _ _ := .inl rfl

/-- **No wakeup of the log is lost**: while the lock is free, begin_op only sleeps if
    a process commits or there is no room in the log; and then there is a process
    that commits or is in an operation. -/
theorem begins_blocked (h : Reach (code L) (Starts L d) (fun _ _ => True) σ)
    (hfree : σ.owner = none) (ht : σ.ctx t = .asleep ()) :
    (σ.mem.committing = true ∨ σ.mem.lh.length + (σ.mem.outstanding + 1) * 10 > 30) ∧
      ∃ t', (σ.pc t').commits = true ∨ σ.mem.op t' ≠ none := by
  have hC := control_of_reach h
  have hb : σ.mem.Blocked := ((sleepers L).blocked_or_owed (fun _ hi => hi.start)
    (fun _ hr => ⟨control_of_reach hr, blocked_of_beginSleep hr⟩) h).blocked (inv_of_reach h)
    hfree ht
  refine ⟨hb, ?_⟩
  rcases hb with hc | hl
  · obtain ⟨t', ht'⟩ := hC.committer hc
    exact ⟨t', .inl ht'⟩
  · by_contra hno
    have hop : ∀ t', σ.mem.op t' = none := fun t' => by
      by_contra hne; exact hno ⟨t', .inr hne⟩
    have h0 : σ.mem.outstanding = 0 := by
      rw [hC.count]; exact Finset.sum_eq_zero fun t' _ => active_eq_zero (hop t')
    have hlh : σ.mem.lh = [] := by
      by_contra hne
      rcases hC.rest hne with hc | hpos
      · obtain ⟨t', ht'⟩ := hC.committer hc
        exact hno ⟨t', .inl ht'⟩
      · omega
    rw [h0, hlh] at hl
    simp at hl

theorem begins_blocked_waiting : ∃ σ : LState (Fin 4),
    Reach (code mkfs) (Starts mkfs blank) (fun _ _ => True) σ ∧
    (σ.owner, σ.ctx 3) = (none, .asleep ()) ∧
    (σ.mem.committing = true ∨ σ.mem.lh.length + (σ.mem.outstanding + 1) * 10 > 30) ∧
      ∃ t', (σ.pc t').commits = true ∨ σ.mem.op t' ≠ none := by
  have hplay : (play (pick mkfs) (fun _ _ => true)
      (beginOp 0 ++ beginOp 1 ++ beginOp 2 ++ beginOp 3) (start (T := Fin 4) blank)).map
      (fun σ => (σ.owner, σ.ctx 3)) = some (none, .asleep ()) := by decide +kernel
  obtain ⟨σ, hr, hf⟩ := reach_play mkfs (blank_empty _) _ (fun _ _ _ => trivial) hplay
  obtain ⟨ho, ht⟩ := Prod.mk.inj hf
  exact ⟨σ, hr, hf, begins_blocked hr ho ht⟩

end

end OSLabs.Log
