/-
  Empty commands.

  parse_scommand turns an absent command into one without words, and
  parse_pipeline rejects it only if there is no other.  A pipeline whose
  commands all have words runs without a failed assertion
  (`executePipeline_sound`), so what parse_pipeline accepts is safe to run
  exactly if every command of the line has a word (`acceptsWords_iff`).
-/
import OSLabs.Shell.ParsingSafety
import OSLabs.Shell.WellFormed
import OSLabs.Shell.Execute

namespace OSLabs.Shell

variable {σ : Type} {env : Env}

/-- No assertion failed, and a call of execvp had a file name, which the error
    message behind it can print. -/
def Ending.Sound : Ending → Prop
  | .execvp file _ failed => file.isSome = true ∧ failed = .exit 1
  | .fault (.assertion _) => False
  | _ => True

/-! ## Running commands with words -/

theorem Scommand.ending_sound {sc : Scommand} (h : sc.comm ≠ []) : sc.ending.Sound := by
  obtain ⟨w, l, hl⟩ := List.exists_cons_of_ne_nil h
  simp [Scommand.ending, Ending.Sound, execvpFailed, string, hl]

theorem builtinRun_sound {sc : Scommand} (hb : builtinIsInternal (some sc) = .ok true) (p : Proc) :
    (Run.after (builtinRun env (some sc) p) (.done (.returned []))).All fun e _ => e.Sound := by
  rcases sc with ⟨addr, _ | ⟨command, args⟩, in_, out⟩
  · cases hb
  simp only [builtinRun, hb, Proc.call_ok, notNull_some, scommandFront, bind, Except.bind, pure,
    Except.pure, Bool.not_true, Bool.false_eq_true, if_false]
  split_ifs with hcd hhelp hexit
  · simp only [cdArguments, scommandPopFront, scommandLength, notNull_some, bind, Except.bind, pure,
      Except.pure]
    cases args with
    | nil =>
      cases env.getlogin with
      | none => simp [string, Proc.call, Run.All, Ending.Sound]
      | some login =>
        simp only [string, List.length_nil, if_true, scommandPushBack, notNull_some, bind,
          Except.bind, pure, Except.pure, Proc.call_ok, List.nil_append]
        cases env.chdir p.cwd (strmerge "/home/".toList login) <;> trivial
    | cons directory args =>
      simp only [List.length_cons, Nat.succ_ne_zero, if_false, Proc.call_ok]
      cases env.chdir p.cwd directory <;> trivial
  · trivial
  · trivial
  · trivial

theorem executePipelineLoop_sound (n : ℕ) (cmds : List Scommand)
    (h : ∀ sc ∈ cmds, sc.comm ≠ []) (i : ℕ) (l : Locals) (apipe : Pipeline) (p : Proc)
    (hp : apipe.pipe = cmds) :
    (executePipelineLoop env n cmds.length i l apipe p).All fun e _ => e.Sound := by
  induction cmds generalizing i l apipe p with
  | nil => exact trivial
  | cons cmd rest ih =>
    rw [List.length_cons]
    cases hf : env.fork i with
    | none => rw [executePipelineLoop_none env _ _ _ _ _ hp hf]; exact trivial
    | some pid =>
      obtain ⟨e, he, hrun⟩ := executePipelineLoop_some env n rest.length l _ p hp hf
      obtain ⟨e', he', hend⟩ := childBranch_ends env n i (rotatePipes env n i l p).1 cmd
        (rotatePipes env n i l p).2
      obtain rfl : e = e' := Except.error.inj (he.symm.trans he')
      rw [hrun]
      refine ⟨?_, ih (fun sc hsc => h sc (by simp [hsc])) _ _ _ _ rfl⟩
      rcases hend with hend | hend
      · simp only [Run.All, hend, Ending.Sound]
      · simpa only [Run.All, hend] using Scommand.ending_sound (h cmd (by simp))

/-- **A pipeline whose commands have words runs soundly**, the shell itself
    and all its children. -/
theorem executePipeline_sound (apipe : Pipeline) (h : ∀ sc ∈ apipe.pipe, sc.comm ≠ []) (p : Proc) :
    (executePipeline env (some apipe) p).All fun e _ => e.Sound := by
  obtain ⟨b, hb, hlone⟩ := builtinAlone_ne h
  cases b with
  | true =>
    obtain ⟨sc, hp, hsc⟩ := hlone rfl
    rw [executePipeline_alone hp hb]
    exact builtinRun_sound hsc p
  | false =>
    rw [executePipeline_loop hb, Run.started_all]
    exact executePipelineLoop_sound _ _ h _ _ _ _ rfl

/-! ## What parse_pipeline accepts -/

/-- What parse_pipeline returns has a command, all its commands have words, and
    every process that runs it ends soundly. -/
def AcceptsWords (P : Parser σ) (fuel : ℕ) (w : World σ) : Prop :=
  ∀ result w', parsePipeline P fuel w = .ok (some result, w') →
    result.pipe ≠ [] ∧ (∀ sc ∈ result.pipe, sc.comm ≠ []) ∧
    ∀ env p, (executePipeline env (some result) p).All fun e _ => e.Sound

theorem hasWord_iff {args : List Arg} : HasWord args ↔ (Cmd.ofArgs args).words ≠ [] := by
  refine ⟨HasWord.words_ne, fun h => ?_⟩
  obtain ⟨w, hw⟩ := List.exists_mem_of_ne_nil _ h
  obtain ⟨a, ha, haw⟩ := List.mem_filterMap.1 hw
  cases a with
  | word v => exact ⟨v, ha⟩
  | redirIn f => cases haw
  | redirOut f => cases haw

/-- The commands of a line have words iff those parsed from it have. -/
theorem scommandsFrom_words (a : ℕ) (cmds : List (List Arg)) :
    (∀ sc ∈ scommandsFrom a cmds, sc.comm ≠ []) ↔ ∀ args ∈ cmds, HasWord args := by
  have h := scommandsFrom_cmd a cmds
  constructor
  · intro hsc args hargs
    obtain ⟨sc, hmem, hcmd⟩ := List.mem_map.1
      (h ▸ List.mem_map_of_mem hargs : Cmd.ofArgs args ∈ (scommandsFrom a cmds).map Scommand.cmd)
    rw [hasWord_iff, ← hcmd]
    exact hsc sc hmem
  · intro hargs sc hsc
    obtain ⟨args, hmem, hcmd⟩ := List.mem_map.1
      (h ▸ List.mem_map_of_mem hsc : sc.cmd ∈ cmds.map Cmd.ofArgs)
    have := hasWord_iff.1 (hargs args hmem)
    rwa [hcmd] at this

section
variable {P : Parser σ} {W : WordChars} {unread : σ → List Char}

/-- **parse_pipeline accepts commands with words only, exactly on the lines
    that it rejects and on those whose commands all have words.** -/
theorem acceptsWords_iff (hP : Documented P W unread) (w : World σ) {fuel : ℕ}
    (hf : (toks W (unread w.parser)).length + 2 ≤ fuel) :
    AcceptsWords P fuel w ↔
      (w.line W unread).faulty = true ∨ (w.line W unread).garbage = true ∨
        ∀ args ∈ (w.line W unread).commands, HasWord args := by
  have ht : toks W (unread w.parser) = (w.line W unread).toks := (Line.toks_read _).symm
  rw [ht] at hf
  generalize w.line W unread = L at ht hf
  by_cases hab : L.faulty = true ∧ L.garbage = true
  · refine ⟨fun _ => Or.inl hab.1, fun _ result w' h => ?_⟩
    rw [parsePipeline_abort hP hf ht hab.1 hab.2] at h
    cases h
  obtain ⟨w', hw', -⟩ := parsePipeline_read hP hf ht hab
  cases hacc : L.accepted with
  | false =>
    have hbad : L.faulty = true ∨ L.garbage = true := by
      rw [Line.accepted, Bool.and_eq_false_iff] at hacc
      simpa using hacc
    refine ⟨fun _ => hbad.imp_right Or.inl, fun _ result w'' h => ?_⟩
    rw [hw', hacc] at h
    cases h
  | true =>
    have hgood : L.faulty = false ∧ L.garbage = false := by
      simpa [Line.accepted, Bool.and_eq_true] using hacc
    rw [hacc] at hw'
    constructor
    · intro h
      have hsc := (h _ _ hw').2.1
      exact Or.inr (Or.inr ((scommandsFrom_words _ _).1 hsc))
    · rintro (hl | hg | hargs) result w'' h
      · rw [hgood.1] at hl; cases hl
      · rw [hgood.2] at hg; cases hg
      · rw [hw'] at h
        cases h
        have hsc := (scommandsFrom_words w.news L.commands).2 hargs
        exact ⟨by simp [Line.commands, scommandsFrom], hsc,
          fun env p => executePipeline_sound ⟨_, !L.background⟩ hsc p⟩

end

/-- The line `ls | wc`. -/
theorem acceptsWords_pipe :
    AcceptsWords (textParser .all) 6 { parser := { unread := ['l', 's', '|', 'w', 'c', '\n'] } } := by
  refine (acceptsWords_iff (W := .all) (textParser_documented .all) _ (by decide)).2
    (Or.inr (Or.inr ?_))
  have hline : (World.line .all TextState.unread
      ({ parser := { unread := ['l', 's', '|', 'w', 'c', '\n'] } } : World TextState)).commands =
      [[.word ['l', 's']], [.word ['w', 'c']]] := by decide
  rw [hline]
  simp [HasWord]

/-- The line `ls |`: its second command has no words. -/
theorem not_acceptsWords_empty :
    ¬ AcceptsWords (textParser .all) 6 { parser := { unread := ['l', 's', '|', '\n'] } } := by
  intro h
  have hok : parsePipeline (textParser .all) 6 { parser := { unread := ['l', 's', '|', '\n'] } } =
      .ok (some ⟨[⟨0, [['l', 's']], none, none⟩, ⟨1, [], none, none⟩], true⟩,
        { parser := { unread := [] }, news := 3 }) := rfl
  exact (h _ _ hok).2.1 ⟨1, [], none, none⟩ (by simp) rfl

end OSLabs.Shell
