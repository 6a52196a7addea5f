/-
  One call of parse_pipeline, one line (lab1, parsing.c and mybash.c).

  This is proved for every parser whose operations but `parserGarbage` consume
  no newline, and that gets on with each argument and each pipe sign
  (`Progress`).  `Follows` are the relations between the states of a run that
  the operations keep: they hold between the first and the last state of each
  function of parsing.c.
-/
import OSLabs.Shell.ParsingSpec
import OSLabs.Shell.TextParser

namespace OSLabs.Shell

variable {σ : Type}

/-! ## Along a run -/

/-- parse_pipeline up to its garbage check. -/
def parseCommands (P : Parser σ) (fuel : ℕ) (w : World σ) :
    Except Fault (Option Pipeline × World σ) := do
  let (cmd, w) ← parseScommand P fuel w
  let (result, error, w) ← parsePipelineLoop P fuel fuel w pipelineNew cmd true cmd.isNone
  let (isbackground, w) := w.parserOpBackground P
  let result ← pipelineSetWait (some result) (!isbackground)
  checkErrors w result error

/-- A relation between the states of a run that each operation of the parser
    keeps, and that does not depend on the ledger of the commands. -/
structure Follows (P : Parser σ) (R : World σ → World σ → Prop) : Prop where
  ledger : ∀ {w w' : World σ}, w'.parser = w.parser → w'.usedAtEof = w.usedAtEof → R w w'
  trans : ∀ {w w' w'' : World σ}, R w w' → R w' w'' → R w w''
  nextArgument : ∀ w, R w (w.parserNextArgument P).2.2
  opBackground : ∀ w, R w (w.parserOpBackground P).2
  skipBlanks : ∀ w, R w (w.parserSkipBlanks P)
  opPipe : ∀ w, R w (w.parserOpPipe P).2

section
variable {P : Parser σ} {R : World σ → World σ → Prop} {n fuel : ℕ} {w w' : World σ}
  {c : Option Scommand} {a : Option Word} {k k' : ArgKind} {p p' : Pipeline} {b e e' : Bool}

theorem ok_of_bind {α β ε : Type} {x : Except ε α} {f : α → Except ε β} {y : β}
    (h : x >>= f = .ok y) : ∃ z, x = .ok z ∧ f z = .ok y := by
  cases x with
  | ok z => exact ⟨z, rfl, h⟩
  | error e => cases h

theorem parsePipeline_eq (P : Parser σ) (fuel : ℕ) (w : World σ) :
    parsePipeline P fuel w = parseCommands P fuel w >>= fun r => checkGarbage P r.2 r.1 := by
  simp only [parsePipeline, parseCommands, bind_assoc]

/-- A round of the loop of parse_scommand. -/
theorem parseScommandLoop_some (P : Parser σ) (n : ℕ) (w : World σ) (sc : Scommand) (x : Word)
    (k : ArgKind) : ∃ sc', parseScommandLoop P (n + 1) w (some sc) (some x) k =
      parseScommandLoop P n ((w.parserNextArgument P).2.2.parserSkipBlanks P) (some sc')
        (w.parserNextArgument P).1 (w.parserNextArgument P).2.1 := by
  cases k <;> exact ⟨_, rfl⟩

theorem Follows.parseScommandLoop (h : Follows P R) {sc : Scommand}
    (hrun : parseScommandLoop P n w (some sc) a k = .ok (c, k', w')) : R w w' := by
  induction n generalizing w sc a k with
  | zero => cases hrun
  | succ n ih =>
    cases a with
    | none => cases hrun; exact h.ledger rfl rfl
    | some x =>
      obtain ⟨sc', hround⟩ := parseScommandLoop_some P n w sc x k
      rw [hround] at hrun
      exact h.trans (h.trans (h.nextArgument w) (h.skipBlanks _)) (ih hrun)

theorem scommandDestroy_keeps {w w' : World σ} (h : scommandDestroy w c = .ok w') :
    w'.parser = w.parser ∧ w'.usedAtEof = w.usedAtEof := by
  obtain ⟨sc, -, h⟩ := ok_of_bind h
  cases h; exact ⟨rfl, rfl⟩

theorem Follows.parseScommand (h : Follows P R) (hrun : parseScommand P fuel w = .ok (c, w')) :
    R w w' := by
  obtain ⟨⟨c₁, k, w₁⟩, hloop, hrun⟩ := ok_of_bind hrun
  have hstart : R w w₁ :=
    h.trans (h.ledger (show (scommandNew w).2.parser = w.parser from rfl) rfl)
      (h.trans (h.skipBlanks _) (h.trans (h.nextArgument _) (h.parseScommandLoop hloop)))
  simp only at hrun
  split_ifs at hrun
  · obtain ⟨w₂, hdestroy, hrun⟩ := ok_of_bind hrun
    obtain ⟨hp, hu⟩ := scommandDestroy_keeps hdestroy
    cases hrun; exact h.trans hstart (h.ledger hp hu)
  · cases hrun; exact hstart

theorem Follows.parsePipelineLoop (h : Follows P R)
    (hrun : parsePipelineLoop P fuel n w p c b e = .ok (p', e', w')) : R w w' := by
  induction n generalizing w p c b e with
  | zero => cases hrun
  | succ n ih =>
    rw [Shell.parsePipelineLoop] at hrun
    split_ifs at hrun
    · obtain ⟨p₁, -, hrun⟩ := ok_of_bind hrun
      obtain ⟨⟨c₁, w₁⟩, hcommand, hrun⟩ := ok_of_bind hrun
      exact h.trans (h.opPipe w) (h.trans (h.parseScommand hcommand) (ih hrun))
    · cases hrun; exact h.ledger rfl rfl

theorem checkErrors_keeps {r : Option Pipeline} (h : checkErrors w p e = .ok (r, w')) :
    w'.parser = w.parser ∧ w'.usedAtEof = w.usedAtEof := by
  simp only [checkErrors, pipelineDestroy_some] at h
  split_ifs at h
  · cases h; exact ⟨rfl, rfl⟩
  · obtain ⟨lone, -, h⟩ := ok_of_bind h
    cases lone <;> cases h <;> exact ⟨rfl, rfl⟩

theorem checkErrors_returns (w : World σ) (p : Pipeline) (e : Bool) :
    ∃ r w', checkErrors w p e = .ok (r, w') := by
  have hlone : ∃ l, loneEmpty p = .ok l := by
    rcases hp : p.pipe with _ | ⟨sc, _ | ⟨sc', l⟩⟩ <;>
      simp [loneEmpty, pipelineLength, pipelineFront, scommandLength, hp, bind, Except.bind, pure,
        Except.pure]
  obtain ⟨l, hl⟩ := hlone
  simp only [checkErrors, pipelineDestroy_some, hl, bind, Except.bind]
  split_ifs
  · exact ⟨_, _, rfl⟩
  · exact ⟨_, _, rfl⟩
  · exact ⟨_, _, rfl⟩

/-- **A relation that the operations keep holds along parse_pipeline**, up to
    its garbage check. -/
theorem Follows.parseCommands {r : Option Pipeline} (h : Follows P R)
    (hrun : parseCommands P fuel w = .ok (r, w')) : R w w' := by
  obtain ⟨⟨c, w₁⟩, hcommand, hrun⟩ := ok_of_bind hrun
  obtain ⟨⟨p, e, w₂⟩, hloop, hrun⟩ := ok_of_bind hrun
  obtain ⟨hp, hu⟩ := checkErrors_keeps hrun
  exact h.trans (h.parseScommand hcommand) (h.trans (h.parsePipelineLoop hloop)
    (h.trans (h.opBackground w₂) (h.ledger hp hu)))

end

/-! ## Progress -/

/-- The text `ds` is left of `cs`, and no newline was consumed. -/
def Consumes (cs ds : List Char) : Prop := ∃ l, '\n' ∉ l ∧ cs = l ++ ds

theorem Consumes.refl (cs : List Char) : Consumes cs cs := ⟨[], List.not_mem_nil, rfl⟩

theorem Consumes.trans {cs ds es : List Char} (h : Consumes cs ds) (h' : Consumes ds es) :
    Consumes cs es := by
  obtain ⟨l, hl, rfl⟩ := h
  obtain ⟨l', hl', rfl⟩ := h'
  exact ⟨l ++ l', by simp [hl, hl'], (List.append_assoc ..).symm⟩

theorem Consumes.length_le {cs ds : List Char} (h : Consumes cs ds) : ds.length ≤ cs.length := by
  obtain ⟨l, -, rfl⟩ := h
  simp

theorem Consumes.afterLine {cs ds : List Char} (h : Consumes cs ds) :
    afterLine ds = afterLine cs := by
  obtain ⟨l, hl, rfl⟩ := h
  exact (TextState.afterLine_append hl ds).symm

/-- **A parser that gets on.**  An argument or a pipe sign consumes a character,
    only `parserGarbage` consumes a newline, and it consumes through it. -/
structure Progress (P : Parser σ) (unread : σ → List Char) : Prop where
  nextArgument : ∀ s, Consumes (unread s) (unread (P.parserNextArgument s).2.2)
  opBackground : ∀ s, Consumes (unread s) (unread (P.parserOpBackground s).2)
  skipBlanks : ∀ s, Consumes (unread s) (unread (P.parserSkipBlanks s))
  opPipe : ∀ s, Consumes (unread s) (unread (P.parserOpPipe s).2)
  argument : ∀ s, (P.parserNextArgument s).1 ≠ none →
    (unread (P.parserNextArgument s).2.2).length < (unread s).length
  pipe : ∀ s, (P.parserOpPipe s).1 = true →
    (unread (P.parserOpPipe s).2).length < (unread s).length
  garbage : ∀ s, unread (P.parserGarbage s).2 = afterLine (unread s)

section
variable {P : Parser σ} {unread : σ → List Char} {n fuel : ℕ} {w w' : World σ}

theorem Progress.follows (hP : Progress P unread) :
    Follows P fun w w' => Consumes (unread w.parser) (unread w'.parser) where
  ledger hp _ := by rw [hp]; exact .refl _
  trans := .trans
  nextArgument w := hP.nextArgument w.parser
  opBackground w := hP.opBackground w.parser
  skipBlanks w := hP.skipBlanks w.parser
  opPipe w := hP.opPipe w.parser

/-- The loop of parse_scommand ends: each argument consumes a character. -/
theorem parseScommandLoop_returns (hP : Progress P unread) (sc : Scommand) {a : Option Word}
    (k : ArgKind) (hn : 0 < n) (ha : a ≠ none → (unread w.parser).length + 2 ≤ n) :
    ∃ sc' k' w', parseScommandLoop P n w (some sc) a k = .ok (some sc', k', w') := by
  induction n generalizing w sc a k with
  | zero => omega
  | succ n ih =>
    cases a with
    | none => exact ⟨sc, k, w, rfl⟩
    | some x =>
      obtain ⟨sc', hround⟩ := parseScommandLoop_some P n w sc x k
      rw [hround]
      have hlen := ha nofun
      refine ih sc' _ (by omega) fun hsome => ?_
      have hlt := hP.argument w.parser hsome
      have hle := (hP.skipBlanks (w.parserNextArgument P).2.2.parser).length_le
      simp only [World.parserNextArgument, World.after, World.parserSkipBlanks] at hle ⊢
      omega

theorem parseScommand_returns (hP : Progress P unread)
    (hf : (unread w.parser).length + 2 ≤ fuel) :
    ∃ c w', parseScommand P fuel w = .ok (c, w') := by
  have hskip := (hP.skipBlanks w.parser).length_le
  set r := ((scommandNew w).2.parserSkipBlanks P).parserNextArgument P with hr
  obtain ⟨sc, k, w₁, hloop⟩ := parseScommandLoop_returns hP (scommandNew w).1 (n := fuel)
    (w := r.2.2) (a := r.1) r.2.1 (by omega) fun hsome => by
      have hlt := hP.argument _ hsome
      simp only [hr, World.parserNextArgument, World.after, World.parserSkipBlanks,
        scommandNew] at hlt ⊢
      omega
  simp only [parseScommand, ← hr, hloop, bind, Except.bind]
  split_ifs
  · exact ⟨_, _, rfl⟩
  · exact ⟨_, _, rfl⟩

/-- The loop of parse_pipeline ends: each pipe sign consumes a character. -/
theorem parsePipelineLoop_returns (hP : Progress P unread) (p : Pipeline) (c : Option Scommand)
    {b : Bool} (hf : (unread w.parser).length + 2 ≤ fuel) (hn : 0 < n)
    (hb : b = true → (unread w.parser).length + 2 ≤ n) :
    ∃ p' e w', parsePipelineLoop P fuel n w p c b c.isNone = .ok (p', e, w') := by
  induction n generalizing w p c b with
  | zero => omega
  | succ n ih =>
    cases hgo : b && !c.isNone with
    | false => exact ⟨_, _, _, parsePipelineLoop_stop (by omega) _ _ _ hgo⟩
    | true =>
      simp only [Bool.and_eq_true, Bool.not_eq_true', Option.isNone_eq_false_iff] at hgo
      obtain ⟨rfl, hc⟩ := hgo
      obtain ⟨sc, rfl⟩ := Option.isSome_iff_exists.1 hc
      have hlen := hb rfl
      have hle : (unread (w.parserOpPipe P).2.parser).length ≤ (unread w.parser).length :=
        (hP.opPipe w.parser).length_le
      obtain ⟨c₁, w₁, hcommand⟩ : ∃ c₁ w₁, parseScommand P fuel (w.parserOpPipe P).2 =
          .ok (c₁, w₁) := parseScommand_returns hP (by omega)
      have hle₁ := (hP.follows.parseScommand hcommand).length_le
      have hpush : w.parserOpPipe P = ((w.parserOpPipe P).1, (w.parserOpPipe P).2) := rfl
      rw [Option.isNone_some, parsePipelineLoop_push hpush, hcommand]
      show ∃ p' e w', parsePipelineLoop P fuel n w₁ _ c₁ _ c₁.isNone = .ok (p', e, w')
      refine ih _ c₁ (by omega) (by omega) fun hpipe => ?_
      have hlt : (unread (w.parserOpPipe P).2.parser).length < (unread w.parser).length :=
        hP.pipe w.parser hpipe
      omega

/-- **parse_pipeline gets to its garbage check**, if the bound on its loops is
    as large as the text. -/
theorem parseCommands_returns (hP : Progress P unread)
    (hf : (unread w.parser).length + 2 ≤ fuel) :
    ∃ r w', parseCommands P fuel w = .ok (r, w') := by
  obtain ⟨c, w₁, hcommand⟩ := parseScommand_returns hP hf
  have hle := (hP.follows.parseScommand hcommand).length_le
  obtain ⟨p, e, w₂, hloop⟩ : ∃ p e w₂, parsePipelineLoop P fuel fuel w₁ pipelineNew c true
      c.isNone = .ok (p, e, w₂) :=
    parsePipelineLoop_returns hP pipelineNew c (by omega) (by omega) fun _ => by omega
  obtain ⟨r, w₃, hcheck⟩ := checkErrors_returns (w₂.parserOpBackground P).2
    { p with waiting := !(w₂.parserOpBackground P).1 } e
  refine ⟨r, w₃, ?_⟩
  simp only [parseCommands, hcommand, hloop, pipelineSetWait, notNull_some, bind, Except.bind, pure,
    Except.pure]
  exact hcheck

/-- **One call, one line.**  parse_pipeline returns behind the first newline
    that was unread, or it aborts. -/
theorem parsePipeline_line (hP : Progress P unread) (hf : (unread w.parser).length + 2 ≤ fuel) :
    parsePipeline P fuel w = .error (.assertion .pipelineDestroy) ∨
    ∃ result w', parsePipeline P fuel w = .ok (result, w') ∧
      unread w'.parser = afterLine (unread w.parser) := by
  obtain ⟨r, w₁, hcommands⟩ := parseCommands_returns hP hf
  have hline : unread (w₁.parserGarbage P).2.parser = afterLine (unread w.parser) :=
    (hP.garbage w₁.parser).trans (hP.follows.parseCommands hcommands).afterLine
  have hrun : parsePipeline P fuel w = checkGarbage P w₁ r := by
    rw [parsePipeline_eq, hcommands]; rfl
  rw [hrun, checkGarbage]
  simp only [bind, Except.bind, pure, Except.pure]
  split_ifs
  · cases r with
    | none => exact .inl rfl
    | some p =>
      rw [pipelineDestroy_some]
      exact .inr ⟨none, _, rfl, hline⟩
  · exact .inr ⟨r, _, rfl, hline⟩

/-! ## The main loop -/

/-- The main loop at its prompt behind `k` lines.  What it does with a pipeline
    leaves the parser alone. -/
inductive AtPrompt (P : Parser σ) (unread : σ → List Char) (start : World σ) : ℕ → World σ → Prop
  | start : AtPrompt P unread start 0 start
  | next {k fuel : ℕ} {w w₁ w₂ : World σ} {result : Option Pipeline} :
      AtPrompt P unread start k w → (unread w.parser).length + 2 ≤ fuel →
      parsePipeline P fuel w = .ok (result, w₁) → w₂.parser = w₁.parser →
      P.parserAtEof w₂.parser = false → AtPrompt P unread start (k + 1) w₂

theorem AtPrompt.unread_eq {start : World σ} {k : ℕ} (hP : Progress P unread)
    (h : AtPrompt P unread start k w) :
    unread w.parser = Shell.afterLine^[k] (unread start.parser) := by
  induction h with
  | start => rfl
  | next _ hf hrun hparser _ ih =>
    rw [Function.iterate_succ_apply', ← ih, hparser]
    rcases parsePipeline_line hP hf with habort | ⟨_, _, hrun', hline⟩
    · rw [habort] at hrun; cases hrun
    · rw [hrun'] at hrun; cases hrun; exact hline

/-- The text up to its first newline. -/
def lineOf (cs : List Char) : List Char := cs.takeWhile (· != '\n')

/-- The tokens of a text are those of its first line, and what follows a
    newline. -/
theorem toks_lineOf (W : WordChars) (cs : List Char) :
    toks W cs = toks W (lineOf cs) ∨ ∃ ts, toks W cs = toks W (lineOf cs) ++ .sym '\n' :: ts := by
  have hcs := List.takeWhile_append_dropWhile (p := (· != '\n')) (l := cs)
  rcases hd : cs.dropWhile (· != '\n') with _ | ⟨d, ds⟩
  · rw [hd, List.append_nil] at hcs
    exact .inl (by rw [lineOf, hcs])
  · have hnl : d = '\n' := by
      have := List.head?_dropWhile_not (· != '\n') cs
      rw [hd] at this
      simpa using this
    have hn : W.word '\n' = false := TextState.word_newline W
    rw [hd, hnl] at hcs
    refine .inr ⟨toks W ds, ?_⟩
    conv_lhs => rw [← hcs]
    rw [toks, Lexing.lex_append (Lexing.Stops.cons hn),
      Lexing.lex_sym hn (by decide : isBlank '\n' = false)]
    rfl

/-- **What a call returns depends on its line only.** -/
theorem parsePipeline_lineOf {W : WordChars} (hP : Documented P W unread)
    (hf : (unread w.parser).length + 2 ≤ fuel) {L : Line}
    (hL : L.toks = toks W (lineOf (unread w.parser))) :
    ∃ w', parsePipeline P fuel w =
      if L.faulty && L.garbage then .error (.assertion .pipelineDestroy)
      else .ok (if L.accepted then some ⟨scommandsFrom w.news L.commands, !L.background⟩ else none,
        w') := by
  have hlen : (toks W (unread w.parser)).length + 2 ≤ fuel := by
    have : (toks W (unread w.parser)).length ≤ _ := (Lexing.spells_lex _).length_le
    omega
  -- the line, with the lines behind it
  obtain ⟨L', hL', hcommands, hfaulty, hgarbage, hback⟩ : ∃ L' : Line,
      L'.toks = toks W (unread w.parser) ∧ L'.commands = L.commands ∧ L'.faulty = L.faulty ∧
        L'.garbage = L.garbage ∧ L'.background = L.background := by
    rcases toks_lineOf W (unread w.parser) with h | ⟨ts, h⟩
    · exact ⟨L, hL.trans h.symm, rfl, rfl, rfl, rfl⟩
    · exact ⟨L.followedBy ts, by rw [Line.followedBy_toks, hL, h], rfl, L.followedBy_faulty ts,
        L.followedBy_garbage ts, L.followedBy_background ts⟩
  have haccepted : L'.accepted = L.accepted := by rw [Line.accepted, hfaulty, hgarbage]; rfl
  rw [← hL'] at hlen
  by_cases hbad : L.faulty = true ∧ L.garbage = true
  · refine ⟨w, ?_⟩
    rw [hbad.1, hbad.2]
    exact parsePipeline_abort hP hlen hL'.symm (hfaulty.trans hbad.1) (hgarbage.trans hbad.2)
  · obtain ⟨w', hrun, -⟩ := parsePipeline_read hP hlen hL'.symm (by rwa [hfaulty, hgarbage])
    refine ⟨w', ?_⟩
    rw [if_neg (by rwa [Bool.and_eq_true]), hrun, haccepted, hcommands, hback]

/-- **The k-th call of the main loop reads the k-th line.**  Each call returns
    behind the first newline that was unread, or aborts.  At the prompt behind
    `k` lines the text behind `k` newlines is unread; what is parsed there is
    the line that stands alone, whatever the lines before and behind it are. -/
theorem oneCall_oneLine (hP : Progress P unread) (start : World σ) :
    (∀ w fuel, (unread w.parser).length + 2 ≤ fuel →
      parsePipeline P fuel w = .error (.assertion .pipelineDestroy) ∨
      ∃ result w', parsePipeline P fuel w = .ok (result, w') ∧
        unread w'.parser = afterLine (unread w.parser)) ∧
    (∀ k w, AtPrompt P unread start k w →
      unread w.parser = afterLine^[k] (unread start.parser)) ∧
    ∀ k w, AtPrompt P unread start k w → ∀ W, Documented P W unread → ∀ L : Line,
      L.toks = toks W (lineOf (afterLine^[k] (unread start.parser))) →
      ∀ fuel, (unread w.parser).length + 2 ≤ fuel → ∃ w', parsePipeline P fuel w =
        if L.faulty && L.garbage then .error (.assertion .pipelineDestroy)
        else .ok (if L.accepted then some ⟨scommandsFrom w.news L.commands, !L.background⟩
          else none, w') := by
  refine ⟨fun w fuel hf => parsePipeline_line hP hf, fun k w h => h.unread_eq hP, ?_⟩
  intro k w h W hdoc L hL fuel hf
  rw [← h.unread_eq hP] at hL
  exact parsePipeline_lineOf hdoc hf hL

end

/-! ## The parser of a text -/

namespace TextState
variable {W : WordChars}

theorem dropWhile_consumes {p : Char → Bool} (hp : p '\n' = false) (cs : List Char) :
    Consumes cs (cs.dropWhile p) := by
  refine ⟨cs.takeWhile p, fun h => ?_, List.takeWhile_append_dropWhile.symm⟩
  have := List.all_eq_true.1 List.all_takeWhile _ h
  rw [hp] at this
  cases this

theorem skip_consumes (s : TextState) : Consumes s.unread s.skip.unread :=
  dropWhile_consumes (by decide) _

/-- An operator that is read consumes its character. -/
theorem op_consumes {c : Char} (hc : c ≠ '\n') (s : TextState) :
    Consumes s.unread (s.op c).2.unread ∧
      ((s.op c).1 = true → (s.op c).2.unread.length < s.unread.length) := by
  have hskip := s.skip_consumes
  rw [op]
  split
  · next h => rw [h] at hskip; exact ⟨hskip, fun hfalse => by cases hfalse⟩
  · next d ds off h =>
    rw [h] at hskip
    split_ifs with hd
    · have hcons : Consumes (d :: ds) ds := ⟨[d], by simpa [hd] using hc.symm, rfl⟩
      have hle := hskip.length_le
      refine ⟨hskip.trans hcons, fun _ => ?_⟩
      simp only [List.length_cons] at hle
      show ds.length < _
      omega
    · exact ⟨hskip, fun hfalse => by cases hfalse⟩

/-- A word that is read consumes its characters. -/
theorem readWord_consumes (s : TextState) : Consumes s.unread (s.readWord W).2.unread ∧
    ((s.readWord W).1 ≠ none → (s.readWord W).2.unread.length < s.unread.length) := by
  have hskip := s.skip_consumes
  rw [readWord]
  split
  · exact ⟨hskip, fun h => absurd rfl h⟩
  · next c w h =>
    have hle := hskip.length_le
    have hcs := congrArg List.length
      (List.takeWhile_append_dropWhile (p := W.word) (l := s.skip.unread))
    rw [h, List.length_append, List.length_cons] at hcs
    refine ⟨hskip.trans (dropWhile_consumes (word_newline W) _), fun _ => ?_⟩
    show (s.skip.unread.dropWhile W.word).length < _
    omega

theorem readArgument_consumes (s : TextState) :
    Consumes s.unread (s.readArgument W).2.2.unread ∧
      ((s.readArgument W).1 ≠ none →
        (s.readArgument W).2.2.unread.length < s.unread.length) := by
  -- a word behind an operator that is looked for
  have hword : ∀ {s' : TextState}, Consumes s.unread s'.unread →
      Consumes s.unread (s'.readWord W).2.unread ∧
        ((s'.readWord W).1 ≠ none → (s'.readWord W).2.unread.length < s.unread.length) := by
    intro s' h
    obtain ⟨hc, hlt⟩ := readWord_consumes (W := W) s'
    exact ⟨h.trans hc, fun hne => Nat.lt_of_lt_of_le (hlt hne) h.length_le⟩
  have hin := (op_consumes (c := '<') (by decide) s).1
  rw [readArgument]
  split
  · next s₁ h => rw [h] at hin; exact hword hin
  · next s₁ h =>
    rw [h] at hin
    have hout := hin.trans (op_consumes (c := '>') (by decide) s₁).1
    split
    · next s₂ h₂ => rw [h₂] at hout; exact hword hout
    · next s₂ h₂ => rw [h₂] at hout; exact hword hout

end TextState

theorem textParser_progress (W : WordChars) : Progress (textParser W) TextState.unread where
  nextArgument s := s.readArgument_consumes.1
  opBackground s := (s.op_consumes (by decide)).1
  skipBlanks := TextState.skip_consumes
  opPipe s := (s.op_consumes (by decide)).1
  argument s := s.readArgument_consumes.2
  pipe s := (s.op_consumes (by decide)).2
  garbage := TextState.readLine_line

/-- The line `<`, which is malformed, and the line `ls` behind it. -/
theorem oneCall_oneLine_twoLines : ∃ w w' : World TextState,
    AtPrompt (textParser .all) TextState.unread
      { parser := { unread := ['<', '\n', 'l', 's', '\n'] } } 1 w ∧
    w.parser.unread = ['l', 's', '\n'] ∧
    parsePipeline (textParser .all) 5 w =
      .ok (some ⟨scommandsFrom w.news [[.word ['l', 's']]], true⟩, w') := by
  obtain ⟨w, hrun, heof⟩ : ∃ w, parsePipeline (textParser .all) 7
      { parser := { unread := ['<', '\n', 'l', 's', '\n'] } } = .ok (none, w) ∧
      (textParser .all).parserAtEof w.parser = false := ⟨_, rfl, rfl⟩
  have hat : AtPrompt (textParser .all) TextState.unread
      { parser := { unread := ['<', '\n', 'l', 's', '\n'] } } 1 w :=
    .next .start (by decide) hrun rfl heof
  obtain ⟨-, hunread, hparse⟩ := oneCall_oneLine (textParser_progress .all)
    { parser := { unread := ['<', '\n', 'l', 's', '\n'] } }
  have hw : w.parser.unread = ['l', 's', '\n'] := hunread 1 w hat
  obtain ⟨w', hw'⟩ := hparse 1 w hat .all (textParser_documented .all)
    ⟨[.word ['l', 's']], [], [], rfl⟩ (by decide) 5 (by rw [hw]; decide)
  exact ⟨w, w', hat, hw, hw'⟩

end OSLabs.Shell
