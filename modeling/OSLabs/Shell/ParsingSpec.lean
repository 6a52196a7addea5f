/-
  What `parsePipeline` does on a line, for a parser that is as documented.

  `World.ReadTo` says that only the parser has moved, within the line, and up
  to given tokens.  Each function has one lemma: `parseScommandLoop_read`,
  `parseScommand_read`, `parsePipelineLoop_read` (by recursion on the commands
  of the line), and `parsePipeline_read`, which gives the result on every line.
-/
import OSLabs.Shell.Parsing
import OSLabs.Shell.Line

namespace OSLabs.Shell

variable {σ : Type}

/-! ## The commands of a line -/

/-- The function that parse_scommand calls on a piece of a command. -/
def Scommand.addArg (c : Scommand) : Arg → Scommand
  | .word w => { c with comm := c.comm ++ [w] }
  | .redirIn f => { c with in_ := some f }
  | .redirOut f => { c with out := some f }

/-- The scommand read from the pieces `args`. -/
def scommandOf (addr : ℕ) (args : List Arg) : Scommand :=
  args.foldl Scommand.addArg { addr := addr }

/-- The scommands read from the commands of a line, with addresses from `a` on. -/
def scommandsFrom : ℕ → List (List Arg) → List Scommand
  | _, [] => []
  | a, args :: cmds => scommandOf a args :: scommandsFrom (a + 1) cmds

theorem foldl_addArg (args : List Arg) (c : Scommand) :
    args.foldl Scommand.addArg c =
      { addr := c.addr
        comm := c.comm ++ args.filterMap Arg.word?
        in_ := (args.filterMap Arg.redirIn?).getLast?.or c.in_
        out := (args.filterMap Arg.redirOut?).getLast?.or c.out } := by
  induction args generalizing c with
  | nil => simp
  | cons a args ih =>
    rw [List.foldl_cons, ih]
    cases a <;> simp [Scommand.addArg, List.filterMap_cons, Arg.word?, Arg.redirIn?,
      Arg.redirOut?, List.getLast?_cons]

/-- **The scommand read from some pieces says what they say.** -/
@[simp] theorem scommandOf_cmd (addr : ℕ) (args : List Arg) :
    (scommandOf addr args).cmd = Cmd.ofArgs args := by
  rw [scommandOf, foldl_addArg]
  simp [Scommand.cmd, Cmd.ofArgs]

@[simp] theorem scommandOf_addr (addr : ℕ) (args : List Arg) :
    (scommandOf addr args).addr = addr := by
  rw [scommandOf, foldl_addArg]

@[simp] theorem scommandOf_comm (addr : ℕ) (args : List Arg) :
    (scommandOf addr args).comm = (Cmd.ofArgs args).words := by
  rw [← scommandOf_cmd addr args]; rfl

@[simp] theorem scommandsFrom_length (a : ℕ) (cmds : List (List Arg)) :
    (scommandsFrom a cmds).length = cmds.length := by
  induction cmds generalizing a with
  | nil => rfl
  | cons args cmds ih => simp [scommandsFrom, ih]

theorem scommandsFrom_cmd (a : ℕ) (cmds : List (List Arg)) :
    (scommandsFrom a cmds).map Scommand.cmd = cmds.map Cmd.ofArgs := by
  induction cmds generalizing a with
  | nil => rfl
  | cons args cmds ih => simp [scommandsFrom, ih]

/-! ## Reading the next argument -/

/-- The text and the kind of a piece. -/
def Arg.text : Arg → Word × ArgKind
  | .word w => (w, .normal)
  | .redirIn f => (f, .input)
  | .redirOut f => (f, .output)

theorem nextArgument_arg (a : Arg) (ts : List Tok) :
    nextArgument (a.toks ++ ts) = (some a.text.1, a.text.2, ts) := by
  cases a <;> rfl

theorem nextArgument_pipe (ts : List Tok) :
    nextArgument (.sym '|' :: ts) = (none, .normal, .sym '|' :: ts) := rfl

theorem nextOp_pipe (ts : List Tok) : nextOp '|' (.sym '|' :: ts) = (true, ts) := rfl

/-- Behind the commands there is no argument; what is read is a `<` or `>`
    without a file. -/
theorem nextArgument_tail {tail : List Tok} (h : stopped tail = true) :
    (nextArgument tail).1 = none ∧
    ((nextArgument tail).2.1 = .normal ↔ dangles tail = false) ∧
    (nextArgument tail).2.2 = leftBehind tail := by
  unfold nextArgument
  split
  · simp [stopped] at h
  · simp [stopped] at h
  · simp [stopped] at h
  · simp [leftBehind, dangles]
  · simp [leftBehind, dangles]
  · next h₁ h₂ h₃ h₄ h₅ =>
    rcases tail with _ | ⟨_ | c, ts⟩
    · simp [leftBehind, dangles]
    · simp [leftBehind, dangles]
    · have hlt : c ≠ '<' := fun h => h₄ ts (by rw [h])
      have hgt : c ≠ '>' := fun h => h₅ ts (by rw [h])
      simp [leftBehind, dangles, hlt, hgt]

theorem nextOp_tail {tail : List Tok} (h : stopped tail = true) :
    nextOp '|' tail = (false, tail) := by
  rcases tail with _ | ⟨_ | c, ts⟩
  · rfl
  · rfl
  · have hc : c ≠ '|' := by rintro rfl; simp [stopped] at h
    simp [nextOp, hc]

/-! ## The parser within a line -/

/-- From `w` to `w'` only the parser has moved, within the line, and the unread
    tokens are `ts`. -/
structure World.ReadTo (W : WordChars) (unread : σ → List Char) (w w' : World σ) (ts : List Tok) :
    Prop where
  toks : toks W (unread w'.parser) = ts
  line : afterLine (unread w'.parser) = afterLine (unread w.parser)
  news : w'.news = w.news
  destroyed : w'.destroyed = w.destroyed
  pipelines : w'.pipelinesDestroyed = w.pipelinesDestroyed

section
variable {P : Parser σ} {W : WordChars} {unread : σ → List Char}

theorem World.ReadTo.trans {w w' w'' : World σ} {ts ts' : List Tok}
    (h : World.ReadTo W unread w w' ts) (h' : World.ReadTo W unread w' w'' ts') :
    World.ReadTo W unread w w'' ts' :=
  ⟨h'.toks, h'.line.trans h.line, h'.news.trans h.news, h'.destroyed.trans h.destroyed,
    h'.pipelines.trans h.pipelines⟩

theorem Documented.nextArgument_read (hP : Documented P W unread) {w : World σ} {ts ts' : List Tok}
    {a : Option Word} {k : ArgKind} (hw : toks W (unread w.parser) = ts)
    (h : nextArgument ts = (a, k, ts')) :
    ∃ w', w.parserNextArgument P = (a, k, w') ∧ World.ReadTo W unread w w' ts' := by
  have hd := hP.nextArg w.parser
  rw [hw, h] at hd
  simp only [Prod.mk.injEq] at hd
  obtain ⟨ha, hk, ht⟩ := hd
  exact ⟨w.after P .nextArgument (P.parserNextArgument w.parser).2.2,
    by simp only [World.parserNextArgument, ha, hk], ht.symm, hP.nextArg_line _, rfl, rfl, rfl⟩

theorem Documented.skipBlanks_read (hP : Documented P W unread) (w : World σ) :
    World.ReadTo W unread w (w.parserSkipBlanks P) (toks W (unread w.parser)) :=
  ⟨hP.skipBlanks _, hP.skipBlanks_line _, rfl, rfl, rfl⟩

theorem Documented.opPipe_read (hP : Documented P W unread) {w : World σ} {ts ts' : List Tok}
    {b : Bool} (hw : toks W (unread w.parser) = ts) (h : nextOp '|' ts = (b, ts')) :
    ∃ w', w.parserOpPipe P = (b, w') ∧ World.ReadTo W unread w w' ts' := by
  have hd := hP.opPipe w.parser
  rw [hw, h] at hd
  simp only [Prod.mk.injEq] at hd
  exact ⟨w.after P .opPipe (P.parserOpPipe w.parser).2, by simp only [World.parserOpPipe, hd.1],
    hd.2.symm, hP.opPipe_line _, rfl, rfl, rfl⟩

theorem Documented.opBackground_read (hP : Documented P W unread) {w : World σ} {ts ts' : List Tok}
    {b : Bool} (hw : toks W (unread w.parser) = ts) (h : nextOp '&' ts = (b, ts')) :
    ∃ w', w.parserOpBackground P = (b, w') ∧ World.ReadTo W unread w w' ts' := by
  have hd := hP.opBackground w.parser
  rw [hw, h] at hd
  simp only [Prod.mk.injEq] at hd
  exact ⟨w.after P .opBackground (P.parserOpBackground w.parser).2,
    by simp only [World.parserOpBackground, hd.1], hd.2.symm, hP.opBackground_line _, rfl, rfl, rfl⟩

/-! ## parse_scommand -/

/-- The loop of parse_scommand, entered with the first of the arguments
    `args` read: it reads them all. -/
theorem parseScommandLoop_read (hP : Documented P W unread) {r : List Tok}
    (hr : (nextArgument r).1 = none) (args : List Arg) :
    ∀ (n : ℕ) (w : World σ) (c : Scommand) (a : Option Word) (k : ArgKind) (ts : List Tok),
      args.length < n → nextArgument (argsToks args ++ r) = (a, k, ts) →
      toks W (unread w.parser) = ts →
      ∃ w', parseScommandLoop P n w (some c) a k =
          .ok (some (args.foldl Scommand.addArg c), (nextArgument r).2.1, w') ∧
        World.ReadTo W unread w w' (nextArgument r).2.2 := by
  induction args with
  | nil =>
    rintro (_ | n) w c a k ts hn h hw
    · simp at hn
    · simp only [argsToks, List.flatMap_nil, List.nil_append] at h
      rw [h] at hr ⊢
      subst hr
      exact ⟨w, rfl, hw, rfl, rfl, rfl, rfl⟩
  | cons arg args ih =>
    rintro (_ | n) w c a k ts hn h hw
    · simp at hn
    · have hts : argsToks (arg :: args) ++ r = arg.toks ++ (argsToks args ++ r) := by simp [argsToks]
      rw [hts, nextArgument_arg] at h
      cases h
      obtain ⟨⟨a', k', ts'⟩, h'⟩ : ∃ p, nextArgument (argsToks args ++ r) = p := ⟨_, rfl⟩
      obtain ⟨w₁, hw₁, hr₁⟩ := hP.nextArgument_read hw h'
      obtain ⟨w', hw', hr'⟩ := ih n (w₁.parserSkipBlanks P) (c.addArg arg) a' k' ts'
        (by simpa using hn) h' ((hP.skipBlanks_read w₁).toks.trans hr₁.toks)
      refine ⟨w', ?_, (hr₁.trans (hP.skipBlanks_read w₁)).trans hr'⟩
      cases arg <;> simpa [parseScommandLoop, Arg.text, hw₁, scommandPushBack, scommandSetRedirIn,
        scommandSetRedirOut, Scommand.addArg, pure, Except.pure, bind, Except.bind] using hw'

/-- parse_scommand on the arguments `args`: it makes a new command of them; it
    destroys it if a redirection without a file follows. -/
theorem parseScommand_read (hP : Documented P W unread) {w : World σ} {args : List Arg}
    {r : List Tok} {fuel : ℕ} (hf : args.length < fuel) (hr : (nextArgument r).1 = none)
    (hw : toks W (unread w.parser) = argsToks args ++ r) :
    ∃ w', parseScommand P fuel w =
        .ok (if (nextArgument r).2.1 = .normal then some (scommandOf w.news args) else none, w') ∧
      World.ReadTo W unread
        { w with
          news := w.news + 1
          destroyed := if (nextArgument r).2.1 = .normal then w.destroyed
            else w.destroyed ++ [w.news] } w' (nextArgument r).2.2 := by
  set w₁ := (scommandNew w).2.parserSkipBlanks P with hw₁
  have hs := hP.skipBlanks_read (scommandNew w).2
  obtain ⟨⟨a, k, ts⟩, h⟩ : ∃ p, nextArgument (argsToks args ++ r) = p := ⟨_, rfl⟩
  obtain ⟨w₂, hw₂, hr₂⟩ := hP.nextArgument_read (hs.toks.trans hw) h
  obtain ⟨w₃, hw₃, hr₃⟩ := parseScommandLoop_read hP hr args fuel w₂ (scommandNew w).1 a k ts hf h
    hr₂.toks
  have hr₃' := (hs.trans hr₂).trans hr₃
  have hof : args.foldl Scommand.addArg (scommandNew w).1 = scommandOf w.news args := rfl
  have hrun : parseScommand P fuel w =
      if (nextArgument r).2.1 = .input ∨ (nextArgument r).2.1 = .output then
        .ok (none, { w₃ with destroyed := w₃.destroyed ++ [w.news] })
      else .ok (some (scommandOf w.news args), w₃) := by
    simp only [parseScommand, bind, Except.bind, pure, Except.pure]
    rw [← hw₁, hw₂]
    simp only [hw₃, scommandDestroy, notNull_some, bind, Except.bind, pure, Except.pure, hof,
      scommandOf_addr]
  cases hk : (nextArgument r).2.1 with
  | normal =>
    rw [hk] at hrun
    exact ⟨w₃, by simpa using hrun, by simpa [scommandNew] using
      (⟨hr₃'.toks, hr₃'.line, hr₃'.news, hr₃'.destroyed, hr₃'.pipelines⟩ :
        World.ReadTo W unread { w with news := w.news + 1 } w₃ _)⟩
  | _ =>
    rw [hk] at hrun
    refine ⟨_, by simpa using hrun, ?_⟩
    exact ⟨hr₃'.toks, hr₃'.line, hr₃'.news, by simp [hr₃'.destroyed, scommandNew], hr₃'.pipelines⟩

/-! ## parse_pipeline -/

/-- The commands in the pipeline when its loop ends: all but a faulty last one. -/
def kept (dangling : Bool) (cs : List Scommand) : List Scommand :=
  if dangling then cs.dropLast else cs

/-- The ledger when the loop of parse_pipeline ends, for `n + 1` commands: one
    command made for each, and one more, or the faulty last one destroyed. -/
def World.made (w : World σ) (n : ℕ) (dangling : Bool) : World σ :=
  { w with
    news := w.news + n + if dangling then 1 else 2
    destroyed := if dangling then w.destroyed ++ [w.news + n] else w.destroyed }

theorem parsePipelineLoop_stop {fuel n : ℕ} (hn : 0 < n) (w : World σ) (result : Pipeline)
    (cmd : Option Scommand) {anotherPipe error : Bool} (h : (anotherPipe && !error) = false) :
    parsePipelineLoop P fuel n w result cmd anotherPipe error = .ok (result, error, w) := by
  obtain ⟨n, rfl⟩ := Nat.exists_eq_add_of_lt hn
  rw [Nat.zero_add, parsePipelineLoop, h]; rfl

/-- A round of the loop of parse_pipeline with a command in hand. -/
theorem parsePipelineLoop_push {fuel n : ℕ} {w w' : World σ} {result : Pipeline} {c : Scommand}
    {b : Bool} (h : w.parserOpPipe P = (b, w')) :
    parsePipelineLoop P fuel (n + 1) w result (some c) true false =
      parseScommand P fuel w' >>= fun r => parsePipelineLoop P fuel n r.2
        { result with pipe := result.pipe ++ [c] } r.1 b r.1.isNone := by
  rw [parsePipelineLoop]
  simp only [Bool.not_false, Bool.and_self, if_true, pipelinePushBack, notNull_some, h, bind,
    Except.bind, pure, Except.pure]

/-- parse_scommand and the loop of parse_pipeline, on the commands of a line. -/
theorem parsePipelineLoop_read (hP : Documented P W unread) {tail : List Tok}
    (stop : stopped tail = true) {fuel : ℕ} (rest : List (List Arg)) :
    ∀ (first : List Arg) (n : ℕ) (w : World σ) (result : Pipeline),
      (∀ args ∈ first :: rest, args.length < fuel) → rest.length + 2 ≤ n →
      toks W (unread w.parser) = commandsToks first rest ++ tail →
      ∃ w', (parseScommand P fuel w >>= fun r =>
            parsePipelineLoop P fuel n r.2 result r.1 true r.1.isNone) =
          .ok ({ result with pipe :=
                result.pipe ++ kept (dangles tail) (scommandsFrom w.news (first :: rest)) },
            dangles tail, w') ∧
        World.ReadTo W unread (w.made rest.length (dangles tail)) w' (leftBehind tail) := by
  obtain ⟨h₁, h₂, h₃⟩ := nextArgument_tail stop
  induction rest with
  | nil =>
    intro first n w result hf hn hw
    obtain ⟨w₁, hw₁, hr₁⟩ := parseScommand_read hP (hf first (by simp)) h₁
      (by rw [hw]; simp [commandsToks, moreToks])
    cases hd : dangles tail with
    | true =>
      have hk : (nextArgument tail).2.1 ≠ .normal := by
        intro h
        rw [h₂.1 h] at hd; exact absurd hd (by simp)
      rw [if_neg hk] at hw₁
      rw [if_neg hk, h₃] at hr₁
      refine ⟨w₁, ?_, by simpa [World.made] using hr₁⟩
      rw [hw₁]
      exact (parsePipelineLoop_stop (by omega) _ _ _ rfl).trans (by simp [kept, scommandsFrom])
    | false =>
      have hk : (nextArgument tail).2.1 = .normal := h₂.2 hd
      have hbehind : leftBehind tail = tail := by simp [leftBehind, hd]
      rw [if_pos hk] at hw₁
      rw [if_pos hk, h₃, hbehind] at hr₁
      obtain ⟨w₂, hw₂, hr₂⟩ := hP.opPipe_read hr₁.toks (nextOp_tail stop)
      -- the loop reads one more command, which is empty
      have hf₀ : ([] : List Arg).length < fuel := Nat.zero_lt_of_lt (hf first (by simp))
      obtain ⟨w₃, hw₃, hr₃⟩ := parseScommand_read hP hf₀ h₁ hr₂.toks
      rw [if_pos hk] at hw₃
      rw [if_pos hk, h₃] at hr₃
      obtain ⟨m, rfl⟩ := Nat.exists_eq_add_of_le' hn
      refine ⟨w₃, ?_, hr₃.toks, hr₃.line.trans (hr₂.line.trans hr₁.line), ?_, ?_, ?_⟩
      · rw [hw₁]
        refine (parsePipelineLoop_push (n := m + 1) hw₂).trans ?_
        rw [hw₃]
        exact (parsePipelineLoop_stop (by omega) _ _ _ rfl).trans (by simp [kept, scommandsFrom])
      · simp [hr₃.news, hr₂.news, hr₁.news, World.made]
      · simp [hr₃.destroyed, hr₂.destroyed, hr₁.destroyed, World.made]
      · simp [hr₃.pipelines, hr₂.pipelines, hr₁.pipelines, World.made]
  | cons args rest ih =>
    intro first n w result hf hn hw
    have hw' : toks W (unread w.parser) =
        argsToks first ++ .sym '|' :: (commandsToks args rest ++ tail) := by
      rw [hw]; simp [commandsToks, moreToks]
    obtain ⟨w₁, hw₁, hr₁⟩ := parseScommand_read hP (hf first (by simp)) rfl hw'
    rw [nextArgument_pipe] at hw₁ hr₁
    simp only [if_true] at hw₁ hr₁
    obtain ⟨w₂, hw₂, hr₂⟩ := hP.opPipe_read hr₁.toks (nextOp_pipe _)
    obtain ⟨m, rfl⟩ := Nat.exists_eq_add_of_le' hn
    obtain ⟨w₃, hw₃, hr₃⟩ := ih args (m + (rest.length + 2)) w₂
      { result with pipe := result.pipe ++ [scommandOf w.news first] }
      (fun a ha => hf a (List.mem_cons_of_mem _ ha)) (by omega) hr₂.toks
    have hnews : w₂.news = w.news + 1 := hr₂.news.trans hr₁.news
    refine ⟨w₃, ?_, hr₃.toks, hr₃.line.trans (hr₂.line.trans hr₁.line), ?_, ?_, ?_⟩
    · rw [hw₁]
      refine (parsePipelineLoop_push (n := m + (rest.length + 2)) hw₂).trans (hw₃.trans ?_)
      rw [hnews]
      cases dangles tail <;> simp [kept, scommandsFrom]
    · rw [hr₃.news]; simp only [World.made, hnews, List.length_cons]; omega
    · rw [hr₃.destroyed]
      simp only [World.made, hnews, List.length_cons, hr₂.destroyed, hr₁.destroyed]
      congr 3; omega
    · simp [hr₃.pipelines, hr₂.pipelines, hr₁.pipelines, World.made]

/-- What `pipeline_destroy` does to the ledger. -/
def World.destroyAll (w : World σ) (cs : List Scommand) : World σ :=
  { w with
    destroyed := w.destroyed ++ cs.map Scommand.addr
    pipelinesDestroyed := w.pipelinesDestroyed + 1 }

theorem pipelineDestroyLoop_eq (cs : List Scommand) (w : World σ) :
    pipelineDestroyLoop cs w = .ok { w with destroyed := w.destroyed ++ cs.map Scommand.addr } := by
  induction cs generalizing w with
  | nil => simp [pipelineDestroyLoop]
  | cons c cs ih =>
    simp only [pipelineDestroyLoop, scommandDestroy, notNull_some, bind, Except.bind, pure,
      Except.pure, ih]
    simp

theorem pipelineDestroy_some (w : World σ) (p : Pipeline) :
    pipelineDestroy w (some p) = .ok (w.destroyAll p.pipe) := by
  simp only [pipelineDestroy, notNull_some, pipelineDestroyLoop_eq, bind, Except.bind, pure,
    Except.pure, World.destroyAll]

theorem loneEmpty_eq (a : ℕ) (first : List Arg) (rest : List (List Arg)) (b : Bool) :
    loneEmpty ⟨scommandsFrom a (first :: rest), b⟩ =
      .ok (rest.isEmpty && (Cmd.ofArgs first).words.isEmpty) := by
  cases rest with
  | nil =>
    simp only [loneEmpty, pipelineLength, notNull_some, scommandsFrom, List.length_singleton,
      pipelineFront, scommandLength, bind, Except.bind, pure, Except.pure, if_true, scommandOf_comm,
      List.isEmpty_nil, Bool.true_and]
    cases (Cmd.ofArgs first).words <;> rfl
  | cons args rest =>
    simp [loneEmpty, pipelineLength, scommandsFrom, bind, Except.bind, pure, Except.pure]

/-- The error checks leave NULL on a faulty line, and the pipeline else. -/
theorem checkErrors_eq (L : Line) (w : World σ) (a : ℕ) (b : Bool) :
    checkErrors w ⟨kept L.dangling (scommandsFrom a L.commands), b⟩ L.dangling =
      if L.faulty then .ok (none, w.destroyAll (kept L.dangling (scommandsFrom a L.commands)))
      else .ok (some ⟨scommandsFrom a L.commands, b⟩, w) := by
  cases hd : L.dangling with
  | true =>
    simp only [checkErrors, if_true, pipelineDestroy_some, bind, Except.bind, pure, Except.pure,
      Line.faulty, hd, Bool.true_or]
  | false =>
    have hl := loneEmpty_eq a L.first L.rest b
    simp only [checkErrors, kept, Bool.false_eq_true, if_false, Line.commands, hl,
      pipelineDestroy_some, bind, Except.bind, pure, Except.pure, Line.faulty, Line.lone, hd,
      Bool.false_or]

/-- The bound a line needs for the loops to end. -/
theorem Line.fuel_bounds {L : Line} {fuel : ℕ} (hf : L.toks.length + 2 ≤ fuel) :
    (∀ args ∈ L.first :: L.rest, args.length < fuel) ∧ L.rest.length + 2 ≤ fuel := by
  have hargs : ∀ args : List Arg, args.length ≤ (argsToks args).length := by
    intro args
    induction args with
    | nil => simp
    | cons a args ih => cases a <;> simp [argsToks, Arg.toks] at ih ⊢ <;> omega
  have hmore : ∀ rest : List (List Arg), rest.length ≤ (moreToks rest).length ∧
      ∀ args ∈ rest, args.length ≤ (moreToks rest).length := by
    intro rest
    induction rest with
    | nil => simp
    | cons args rest ih =>
      have hlen : (moreToks (args :: rest)).length =
          (argsToks args).length + 1 + (moreToks rest).length := by
        simp [moreToks, Nat.add_right_comm]
      refine ⟨by simp only [hlen, List.length_cons]; omega, fun as has => ?_⟩
      rcases List.mem_cons.1 has with rfl | has
      · have := hargs as; omega
      · have := ih.2 as has; omega
  have hlen : L.toks.length = (argsToks L.first).length + (moreToks L.rest).length +
      L.tail.length := by simp [Line.toks, commandsToks, Nat.add_assoc]
  refine ⟨fun args ha => ?_, ?_⟩
  · rcases List.mem_cons.1 ha with rfl | ha
    · have := hargs L.first; omega
    · have := (hmore L.rest).2 args ha; omega
  · have := (hmore L.rest).1; omega

/-- parse_pipeline up to its garbage check. -/
theorem parsePipeline_commands (hP : Documented P W unread) {L : Line} {w : World σ} {fuel : ℕ}
    (hf : L.toks.length + 2 ≤ fuel) (hw : toks W (unread w.parser) = L.toks) :
    ∃ w', World.ReadTo W unread (w.made L.rest.length L.dangling) w' (nextOp '&' L.behind).2 ∧
      parsePipeline P fuel w =
        if L.faulty then
          checkGarbage P (w'.destroyAll (kept L.dangling (scommandsFrom w.news L.commands))) none
        else checkGarbage P w' (some ⟨scommandsFrom w.news L.commands, !L.background⟩) := by
  obtain ⟨hargs, hrest⟩ := Line.fuel_bounds hf
  obtain ⟨w₁, hw₁, hr₁⟩ := parsePipelineLoop_read hP L.stop L.rest L.first fuel w pipelineNew hargs
    hrest hw
  obtain ⟨w₂, hw₂, hr₂⟩ := hP.opBackground_read hr₁.toks rfl
  refine ⟨w₂, hr₁.trans hr₂, ?_⟩
  have hloop : parsePipeline P fuel w =
      checkErrors w₂ ⟨kept L.dangling (scommandsFrom w.news L.commands), !L.background⟩ L.dangling >>=
        fun r => checkGarbage P r.2 r.1 := by
    cases hs : parseScommand P fuel w with
    | error e => rw [hs] at hw₁; cases hw₁
    | ok r =>
      rw [hs] at hw₁
      simp only [bind, Except.bind] at hw₁
      simp only [parsePipeline, hs, hw₁, hw₂, pipelineSetWait, notNull_some, bind, Except.bind, pure,
        Except.pure]
      simp only [pipelineNew, List.nil_append]
      rfl
  rw [hloop, checkErrors_eq]
  split_ifs <;> rfl

/-- The garbage check on the line that starts at `w`. -/
theorem checkGarbage_eq (hP : Documented P W unread) {L : Line} {w w' : World σ}
    (ht : toks W (unread w'.parser) = (nextOp '&' L.behind).2)
    (hl : afterLine (unread w'.parser) = afterLine (unread w.parser)) (result : Option Pipeline) :
    ∃ w'', unread w''.parser = afterLine (unread w.parser) ∧ w''.news = w'.news ∧
      w''.destroyed = w'.destroyed ∧ w''.pipelinesDestroyed = w'.pipelinesDestroyed ∧
      checkGarbage P w' result =
        if L.garbage then (pipelineDestroy w'' result).map fun w => (none, w)
        else .ok (result, w'') := by
  have hg : (w'.parserGarbage P).1 = L.garbage := by
    rw [World.parserGarbage, hP.garbage, ht]; rfl
  refine ⟨(w'.parserGarbage P).2, by rw [← hl]; exact hP.garbage_line _, rfl, rfl, rfl, ?_⟩
  simp only [checkGarbage, hg]
  split_ifs
  · simp only [bind, Except.bind, pure, Except.pure, Except.map]
  · rfl

/-- A line is accepted iff it is not faulty and has no garbage. -/
def Line.accepted (L : Line) : Bool := !L.faulty && !L.garbage

/-- **parse_pipeline aborts on a faulty line with garbage**: it destroys the
    pipeline once more. -/
theorem parsePipeline_abort (hP : Documented P W unread) {L : Line} {w : World σ} {fuel : ℕ}
    (hf : L.toks.length + 2 ≤ fuel) (hw : toks W (unread w.parser) = L.toks)
    (hl : L.faulty = true) (hg : L.garbage = true) :
    parsePipeline P fuel w = .error (.assertion .pipelineDestroy) := by
  obtain ⟨w₁, hr₁, hw₁⟩ := parsePipeline_commands hP hf hw
  set w₂ := w₁.destroyAll (kept L.dangling (scommandsFrom w.news L.commands))
  obtain ⟨w₃, -, -, -, -, hw₃⟩ := checkGarbage_eq hP (show toks W (unread w₂.parser) = _ from hr₁.toks)
    hr₁.line none
  rw [hw₁, if_pos hl, hw₃, if_pos hg]
  rfl

/-- **parse_pipeline on every other line**: the pipeline if the line is
    accepted and NULL if not, the parser behind the newline, and the ledger. -/
theorem parsePipeline_read (hP : Documented P W unread) {L : Line} {w : World σ} {fuel : ℕ}
    (hf : L.toks.length + 2 ≤ fuel) (hw : toks W (unread w.parser) = L.toks)
    (hl : ¬ (L.faulty = true ∧ L.garbage = true)) :
    ∃ w', parsePipeline P fuel w =
        .ok (if L.accepted then some ⟨scommandsFrom w.news L.commands, !L.background⟩ else none,
          w') ∧
      unread w'.parser = afterLine (unread w.parser) ∧
      w'.news = w.news + L.rest.length + (if L.dangling then 1 else 2) ∧
      w'.destroyed = w.destroyed ++ (if L.dangling then [w.news + L.rest.length] else []) ++
        (if L.accepted then []
          else (kept L.dangling (scommandsFrom w.news L.commands)).map Scommand.addr) ∧
      w'.pipelinesDestroyed = w.pipelinesDestroyed + if L.accepted then 0 else 1 := by
  obtain ⟨w₁, hr₁, hw₁⟩ := parsePipeline_commands hP hf hw
  have hdest : w₁.destroyed =
      w.destroyed ++ if L.dangling then [w.news + L.rest.length] else [] := by
    rw [hr₁.destroyed, World.made]; simp only; split_ifs <;> simp
  cases hfa : L.faulty with
  | true =>
    have hg : L.garbage = false := by simpa [hfa] using hl
    set w₂ := w₁.destroyAll (kept L.dangling (scommandsFrom w.news L.commands)) with hw₂
    obtain ⟨w₃, h₁, h₂, h₃, h₄, hw₃⟩ := checkGarbage_eq hP
      (show toks W (unread w₂.parser) = _ from hr₁.toks) hr₁.line none
    have hacc : L.accepted = false := by simp [Line.accepted, hfa]
    refine ⟨w₃, ?_, h₁, h₂.trans hr₁.news, ?_, ?_⟩
    · rw [hw₁, if_pos hfa, hw₃]; simp [hg, hacc]
    · rw [h₃, hw₂]; simp [World.destroyAll, hdest, hacc]
    · rw [h₄, hw₂]; simp [World.destroyAll, hr₁.pipelines, World.made, hacc]
  | false =>
    obtain ⟨w₂, h₁, h₂, h₃, h₄, hw₂⟩ := checkGarbage_eq hP (L := L) (w := w) hr₁.toks hr₁.line
      (some ⟨scommandsFrom w.news L.commands, !L.background⟩)
    have hk : kept L.dangling (scommandsFrom w.news L.commands) = scommandsFrom w.news L.commands := by
      have : L.dangling = false := by simp only [Line.faulty, Bool.or_eq_false_iff] at hfa; exact hfa.1
      rw [this]; rfl
    rw [hw₁]
    simp only [hfa, Bool.false_eq_true, if_false]
    rw [hw₂]
    cases hg : L.garbage with
    | true =>
      have hacc : L.accepted = false := by simp [Line.accepted, hg]
      refine ⟨w₂.destroyAll (scommandsFrom w.news L.commands), ?_, h₁, h₂.trans hr₁.news, ?_, ?_⟩
      · rw [if_pos rfl, pipelineDestroy_some, hacc]; rfl
      · simp [World.destroyAll, h₃, hdest, hacc, hk]
      · simp [World.destroyAll, h₄, hr₁.pipelines, World.made, hacc]
    | false =>
      have hacc : L.accepted = true := by simp [Line.accepted, hfa, hg]
      refine ⟨w₂, by simp [hacc], h₁, h₂.trans hr₁.news, ?_, ?_⟩
      · simp [h₃, hdest, hacc]
      · simp [h₄, hr₁.pipelines, World.made, hacc]

end

end OSLabs.Shell
