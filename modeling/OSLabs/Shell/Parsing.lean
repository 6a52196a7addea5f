/-
  Reading a pipeline (lab1, parsing.c), over any parser.

  The state carried along is the parser's and a ledger of what the functions
  of parsing.c do with it: how many `scommand_new` calls there were (the k-th
  returns the address k), which addresses `scommand_destroy` received, how
  often `pipeline_destroy` succeeded, and which parser operations were used at
  the end of the input.  The loops of the source are bounded by a `fuel`.
-/
import OSLabs.Shell.Parser

namespace OSLabs.Shell

/-- The operations of the parser. -/
inductive ParserOp where
  | nextArgument | opBackground | skipBlanks | opPipe | garbage
  deriving DecidableEq, Repr

/-- The state of the parser, and the ledger. -/
structure World (σ : Type) where
  parser : σ
  news : ℕ := 0
  destroyed : List ℕ := []
  pipelinesDestroyed : ℕ := 0
  usedAtEof : List ParserOp := []

variable {σ : Type}

namespace World
variable (P : Parser σ) (w : World σ)

/-- Run an operation of the parser, noting whether it was used at the end of
    the input. -/
def after (op : ParserOp) (s : σ) : World σ :=
  { w with
    parser := s
    usedAtEof := if P.parserAtEof w.parser then w.usedAtEof ++ [op] else w.usedAtEof }

def parserNextArgument : Option Word × ArgKind × World σ :=
  let r := P.parserNextArgument w.parser
  (r.1, r.2.1, w.after P .nextArgument r.2.2)

def parserOpBackground : Bool × World σ :=
  let r := P.parserOpBackground w.parser
  (r.1, w.after P .opBackground r.2)

def parserSkipBlanks : World σ := w.after P .skipBlanks (P.parserSkipBlanks w.parser)

def parserOpPipe : Bool × World σ :=
  let r := P.parserOpPipe w.parser
  (r.1, w.after P .opPipe r.2)

def parserGarbage : Bool × World σ :=
  let r := P.parserGarbage w.parser
  (r.1, w.after P .garbage r.2)

end World

def scommandNew (w : World σ) : Scommand × World σ :=
  ({ addr := w.news, comm := [], in_ := none, out := none }, { w with news := w.news + 1 })

def scommandDestroy (w : World σ) (self : Option Scommand) : Except Fault (World σ) := do
  let self ← notNull .scommandDestroy self
  return { w with destroyed := w.destroyed ++ [self.addr] }

/-- The loop of `pipelineDestroy`, over the commands of the pipeline. -/
def pipelineDestroyLoop : List Scommand → World σ → Except Fault (World σ)
  | [], w => .ok w
  | first :: pipe, w => do
    let w ← scommandDestroy w (some first)
    pipelineDestroyLoop pipe w

def pipelineDestroy (w : World σ) (self : Option Pipeline) : Except Fault (World σ) := do
  let self ← notNull .pipelineDestroy self
  let w ← pipelineDestroyLoop self.pipe w
  return { w with pipelinesDestroyed := w.pipelinesDestroyed + 1 }

section
variable (P : Parser σ)

/-- The loop of `parse_scommand`. -/
def parseScommandLoop : ℕ → World σ → Option Scommand → Option Word → ArgKind →
    Except Fault (Option Scommand × ArgKind × World σ)
  | 0, _, _, _, _ => .error .outOfFuel
  | _ + 1, w, command, none, argtype => .ok (command, argtype, w)
  | n + 1, w, command, some nextComm, argtype => do
    let command ← match argtype with
      | .normal => scommandPushBack command (some nextComm)
      | .input => scommandSetRedirIn command (some nextComm)
      | .output => scommandSetRedirOut command (some nextComm)
    let (nextComm, argtype, w) := w.parserNextArgument P
    let w := w.parserSkipBlanks P
    parseScommandLoop n w (some command) nextComm argtype

def parseScommand (fuel : ℕ) (w : World σ) : Except Fault (Option Scommand × World σ) := do
  let (command, w) := scommandNew w
  let w := w.parserSkipBlanks P
  let (nextComm, argtype, w) := w.parserNextArgument P
  let (command, argtype, w) ← parseScommandLoop P fuel w (some command) nextComm argtype
  if argtype = .input ∨ argtype = .output then
    let w ← scommandDestroy w command
    return (none, w)
  else return (command, w)

/-- The loop of `parse_pipeline`. -/
def parsePipelineLoop (fuel : ℕ) : ℕ → World σ → Pipeline → Option Scommand → Bool → Bool →
    Except Fault (Pipeline × Bool × World σ)
  | 0, _, _, _, _, _ => .error .outOfFuel
  | n + 1, w, result, cmd, anotherPipe, error =>
    if anotherPipe && !error then do
      let result ← pipelinePushBack (some result) cmd
      let (anotherPipe, w) := w.parserOpPipe P
      let (cmd, w) ← parseScommand P fuel w
      parsePipelineLoop fuel n w result cmd anotherPipe cmd.isNone
    else .ok (result, error, w)

/-- The test for a lone command without words. -/
def loneEmpty (result : Pipeline) : Except Fault Bool := do
  let length ← pipelineLength (some result)
  if length = 1 then
    let front ← pipelineFront (some result)
    let words ← scommandLength (some front)
    return words = 0
  else return false

/-- The error checks of `parse_pipeline`. -/
def checkErrors (w : World σ) (result : Pipeline) (error : Bool) :
    Except Fault (Option Pipeline × World σ) := do
  if error then
    let w ← pipelineDestroy w (some result)
    return (none, w)
  else if ← loneEmpty result then
    let w ← pipelineDestroy w (some result)
    return (none, w)
  else return (some result, w)

/-- The garbage check of `parse_pipeline`. -/
def checkGarbage (w : World σ) (result : Option Pipeline) :
    Except Fault (Option Pipeline × World σ) := do
  let (garbage, w) := w.parserGarbage P
  if garbage then
    let w ← pipelineDestroy w result
    return (none, w)
  else return (result, w)

def parsePipeline (fuel : ℕ) (w : World σ) : Except Fault (Option Pipeline × World σ) := do
  let (cmd, w) ← parseScommand P fuel w
  let (result, error, w) ← parsePipelineLoop P fuel fuel w pipelineNew cmd true cmd.isNone
  let (isbackground, w) := w.parserOpBackground P
  let result ← pipelineSetWait (some result) (!isbackground)
  let (result, w) ← checkErrors w result error
  checkGarbage P w result

end

end OSLabs.Shell
