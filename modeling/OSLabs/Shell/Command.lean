/-
  Simple commands and pipelines (lab1, command.c and strextra.c).

  Strings are lists of characters and a `GQueue` is a list.  A pointer that may
  be NULL is an `Option`; every `assert` of the source is a `Fault`.  The
  address of a `scommand` tells apart the objects made by `scommandNew`.
-/
import Mathlib.Data.List.Basic

namespace OSLabs.Shell

/-- A string of the shell. -/
abbrev Word := List Char

/-- The functions whose assertions a caller can violate. -/
inductive Fn where
  | builtinIsInternal | builtinAlone | builtinRun | executePipeline
  | scommandDestroy | scommandPushBack | scommandPopFront | scommandSetRedirIn
  | scommandSetRedirOut | scommandLength | scommandFront | scommandGetRedirIn
  | scommandGetRedirOut | pipelineDestroy | pipelinePushBack | pipelinePopFront
  | pipelineSetWait | pipelineLength | pipelineFront | pipelineGetWait
  deriving DecidableEq, Repr

/-- Why a call does not return: a failed assertion (the shell aborts), a string
    function that was given NULL, or the bound given to a loop of the model was
    too small. -/
inductive Fault where
  | assertion (f : Fn)
  | nullString
  | outOfFuel
  deriving DecidableEq, Repr

/-- `struct scommand_s`, with the address of the object. -/
structure Scommand where
  addr : ℕ
  comm : List Word := []
  in_ : Option Word := none
  out : Option Word := none
  deriving DecidableEq, Repr

/-- `struct pipeline_s`. -/
structure Pipeline where
  pipe : List Scommand := []
  waiting : Bool := true
  deriving DecidableEq, Repr

/-- `assert(self != NULL)` at the head of the function `f`. -/
def notNull {α : Type} (f : Fn) : Option α → Except Fault α
  | some a => .ok a
  | none => .error (.assertion f)

@[simp] theorem notNull_some {α : Type} (f : Fn) (a : α) : notNull f (some a) = .ok a := rfl

@[simp] theorem notNull_none {α : Type} (f : Fn) :
    notNull f (none : Option α) = .error (.assertion f) := rfl

/-- A string that is read, such as by `strlen`. -/
def string : Option Word → Except Fault Word
  | some s => .ok s
  | none => .error .nullString

/-! ## scommand -/

def scommandPushBack (self : Option Scommand) (argument : Option Word) : Except Fault Scommand := do
  let self ← notNull .scommandPushBack self
  let argument ← notNull .scommandPushBack argument
  return { self with comm := self.comm ++ [argument] }

def scommandPopFront (self : Option Scommand) : Except Fault Scommand := do
  let self ← notNull .scommandPopFront self
  match self.comm with
  | [] => .error (.assertion .scommandPopFront)
  | _ :: comm => return { self with comm := comm }

def scommandSetRedirIn (self : Option Scommand) (filename : Option Word) :
    Except Fault Scommand := do
  let self ← notNull .scommandSetRedirIn self
  return { self with in_ := filename }

def scommandSetRedirOut (self : Option Scommand) (filename : Option Word) :
    Except Fault Scommand := do
  let self ← notNull .scommandSetRedirOut self
  return { self with out := filename }

def scommandLength (self : Option Scommand) : Except Fault ℕ := do
  let self ← notNull .scommandLength self
  return self.comm.length

def scommandFront (self : Option Scommand) : Except Fault Word := do
  let self ← notNull .scommandFront self
  match self.comm with
  | [] => .error (.assertion .scommandFront)
  | front :: _ => return front

def scommandGetRedirIn (self : Option Scommand) : Except Fault (Option Word) := do
  let self ← notNull .scommandGetRedirIn self
  return self.in_

def scommandGetRedirOut (self : Option Scommand) : Except Fault (Option Word) := do
  let self ← notNull .scommandGetRedirOut self
  return self.out

/-! ## pipeline -/

def pipelineNew : Pipeline := { pipe := [], waiting := true }

def pipelinePushBack (self : Option Pipeline) (sc : Option Scommand) : Except Fault Pipeline := do
  let self ← notNull .pipelinePushBack self
  let sc ← notNull .pipelinePushBack sc
  return { self with pipe := self.pipe ++ [sc] }

def pipelinePopFront (self : Option Pipeline) : Except Fault Pipeline := do
  let self ← notNull .pipelinePopFront self
  match self.pipe with
  | [] => .error (.assertion .pipelinePopFront)
  | _ :: pipe => return { self with pipe := pipe }

def pipelineSetWait (self : Option Pipeline) (w : Bool) : Except Fault Pipeline := do
  let self ← notNull .pipelineSetWait self
  return { self with waiting := w }

def pipelineLength (self : Option Pipeline) : Except Fault ℕ := do
  let self ← notNull .pipelineLength self
  return self.pipe.length

def pipelineFront (self : Option Pipeline) : Except Fault Scommand := do
  let self ← notNull .pipelineFront self
  match self.pipe with
  | [] => .error (.assertion .pipelineFront)
  | comm :: _ => return comm

def pipelineGetWait (self : Option Pipeline) : Except Fault Bool := do
  let self ← notNull .pipelineGetWait self
  return self.waiting

/-! ## Printing -/

/-- `strmerge`: the concatenation, in new memory. -/
def strmerge (s1 s2 : Word) : Word := s1 ++ s2

/-- One round of the loop of `scommandToString`: the `i`-th word, and a space
    unless it is the last. -/
def scommandToStringRound (self : Scommand) (result : Word) (i : ℕ) : Word :=
  let tmpString := self.comm.getD i []
  let result := strmerge result tmpString
  if i < self.comm.length - 1 then strmerge result [' '] else result

def scommandToString (self : Scommand) : Word :=
  let result := (List.range self.comm.length).foldl (scommandToStringRound self) []
  let result := match self.in_ with
    | some file => strmerge (strmerge result [' ', '<', ' ']) file
    | none => result
  match self.out with
  | some file => strmerge (strmerge result [' ', '>', ' ']) file
  | none => result

/-- One round of the loop of `pipelineToString`: the `i`-th command, and a pipe
    sign unless it is the last. -/
def pipelineToStringRound (self : Pipeline) (result : Word) (i : ℕ) : Word :=
  let tmpString := (self.pipe[i]?.map scommandToString).getD []
  let result := strmerge result tmpString
  if i + 1 < self.pipe.length then strmerge result [' ', '|', ' '] else result

def pipelineToString (self : Pipeline) : Word :=
  let result := (List.range self.pipe.length).foldl (pipelineToStringRound self) []
  if self.waiting then strmerge result [] else strmerge result ['&']

/-! ## What a command says -/

/-- The contents of a command: its words and the files of its redirections. -/
structure Cmd where
  words : List Word := []
  redirIn : Option Word := none
  redirOut : Option Word := none
  deriving DecidableEq, Repr

/-- The contents of a `scommand`, without its address. -/
def Scommand.cmd (sc : Scommand) : Cmd := ⟨sc.comm, sc.in_, sc.out⟩

@[simp] theorem Scommand.cmd_words (sc : Scommand) : sc.cmd.words = sc.comm := rfl

@[simp] theorem Scommand.cmd_redirIn (sc : Scommand) : sc.cmd.redirIn = sc.in_ := rfl

@[simp] theorem Scommand.cmd_redirOut (sc : Scommand) : sc.cmd.redirOut = sc.out := rfl

end OSLabs.Shell
