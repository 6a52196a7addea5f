/-
  The built-in commands (lab1, builtin.c).
-/
import OSLabs.Shell.Process

namespace OSLabs.Shell

def buildins : List Word := ["cd".toList, "help".toList, "exit".toList]

def builtinIsInternal (cmd : Option Scommand) : Except Fault Bool := do
  let cmd ← notNull .builtinIsInternal cmd
  let command ← scommandFront (some cmd)
  return buildins.any (· == command)

def builtinAlone (p : Option Pipeline) : Except Fault Bool := do
  let p ← notNull .builtinAlone p
  if (← pipelineLength (some p)) = 1 then
    let front ← pipelineFront (some p)
    builtinIsInternal (some front)
  else return false

/-- The words of `cd`, with the home directory if none is given. -/
def cdArguments (env : Env) (cmd : Scommand) : Except Fault Scommand := do
  let cmd ← scommandPopFront (some cmd)
  if (← scommandLength (some cmd)) = 0 then
    let login ← string env.getlogin
    scommandPushBack (some cmd) (some (strmerge "/home/".toList login))
  else return cmd

def builtinRun (env : Env) (cmd : Option Scommand) (p : Proc) : Except Ended Proc := do
  let internal ← p.call (builtinIsInternal cmd)
  if !internal then .error ⟨.fault (.assertion .builtinRun), p⟩
  let cmd ← p.call (notNull .builtinRun cmd)
  let command ← p.call (scommandFront (some cmd))
  if command = "cd".toList then
    let cmd ← p.call (cdArguments env cmd)
    let directory ← p.call (scommandFront (some cmd))
    match env.chdir p.cwd directory with
    | some cwd => return { p with cwd := cwd }
    | none => return p
  else if command = "help".toList then return p
  else if command = "exit".toList then .error ⟨.exit 0, p⟩
  else return p

/-! ## Commands with a word -/

theorem scommandFront_ne {sc : Scommand} (h : sc.comm ≠ []) :
    scommandFront (some sc) = .ok (sc.comm.head h) := by
  obtain ⟨w, l, hl⟩ := List.exists_cons_of_ne_nil h
  simp only [scommandFront, notNull_some, bind, Except.bind, hl, List.head_cons]
  rfl

/-- A builtin leaves the descriptors and the disposition of SIGCHLD alone, or
    ends the process. -/
theorem builtinRun_cases (env : Env) (cmd : Option Scommand) (p : Proc) :
    (∃ p', builtinRun env cmd p = .ok p' ∧ p'.fds = p.fds ∧
      p'.sigchldIgnored = p.sigchldIgnored) ∨
    (∃ e, builtinRun env cmd p = .error e ∧ ∀ waited, e.ending ≠ .returned waited) := by
  have hcall : ∀ {α : Type} {r : Except Fault α} {e : Ended}, p.call r = .error e →
      ∀ waited, e.ending ≠ .returned waited := by
    intro α r e h waited
    obtain ⟨f, hf⟩ := Proc.call_error h
    rw [hf]; exact Ending.noConfusion
  unfold builtinRun
  simp only [bind, Except.bind, pure, Except.pure]
  split
  · exact .inr ⟨_, rfl, hcall ‹_›⟩
  split
  · exact .inr ⟨_, rfl, fun _ => Ending.noConfusion⟩
  split
  · exact .inr ⟨_, rfl, hcall ‹_›⟩
  split
  · exact .inr ⟨_, rfl, hcall ‹_›⟩
  split_ifs
  · -- cd
    split
    · exact .inr ⟨_, rfl, hcall ‹_›⟩
    split
    · exact .inr ⟨_, rfl, hcall ‹_›⟩
    split
    · exact .inl ⟨_, rfl, rfl, rfl⟩
    · exact .inl ⟨_, rfl, rfl, rfl⟩
  · exact .inl ⟨_, rfl, rfl, rfl⟩
  · exact .inr ⟨_, rfl, fun _ => Ending.noConfusion⟩
  · exact .inl ⟨_, rfl, rfl, rfl⟩

theorem builtinIsInternal_ne {sc : Scommand} (h : sc.comm ≠ []) :
    builtinIsInternal (some sc) = .ok (buildins.any (· == sc.comm.head h)) := by
  simp only [builtinIsInternal, notNull_some, scommandFront_ne h, bind, Except.bind]
  rfl

/-- Only a lone command is a builtin. -/
theorem builtinAlone_length {p : Pipeline} (h : p.pipe.length ≠ 1) :
    builtinAlone (some p) = .ok false := by
  simp [builtinAlone, pipelineLength, h, bind, Except.bind, pure, Except.pure]

theorem builtinAlone_true {p : Pipeline} (h : builtinAlone (some p) = .ok true) :
    ∃ sc, p.pipe = [sc] := by
  by_contra hne
  rw [← List.length_eq_one_iff] at hne
  rw [builtinAlone_length hne] at h
  cases h

/-- A pipeline whose commands have words is either a lone builtin, or not. -/
theorem builtinAlone_ne {p : Pipeline} (h : ∀ sc ∈ p.pipe, sc.comm ≠ []) :
    ∃ b, builtinAlone (some p) = .ok b ∧
      (b = true → ∃ sc, p.pipe = [sc] ∧ builtinIsInternal (some sc) = .ok true) := by
  rcases hp : p.pipe with _ | ⟨sc, _ | ⟨sc', l⟩⟩
  · exact ⟨false, builtinAlone_length (by simp [hp]), by simp⟩
  · have hsc := builtinIsInternal_ne (h sc (by simp [hp]))
    refine ⟨_, ?_, fun hb => ⟨sc, rfl, hsc.trans (congrArg _ hb)⟩⟩
    simp [builtinAlone, pipelineLength, pipelineFront, hp, hsc, bind, Except.bind, pure, Except.pure]
  · exact ⟨false, builtinAlone_length (by simp [hp]), by simp⟩

end OSLabs.Shell
