/-
  The pipes of the kernel (pipe.c), with the reference counts of their two files
  (filedup and fileclose in file.c).

  `code` is what processes do with one pipe: they write and read it, duplicate
  and close their descriptors of its ends, and fork.  They share the lock of the
  pipe and sleep on its channels (Monitor).  A process can be killed at any time.

  The fields of `Mem` below `fds` are not part of the kernel.  They note which
  bytes have been put into the pipe, and how reads and writes ended.
-/
import OSLabs.Lib.Monitor
import OSLabs.Lib.Ring

namespace OSLabs.Pipe

open Monitor

/-- What a read has taken: the bytes that it copied out, and one more if the last
    copyout failed. -/
structure Read (T : Type) where
  reader : T
  got : List UInt8
  lost : Option UInt8

def Read.bytes {T : Type} (r : Read T) : List UInt8 := r.got ++ r.lost.toList

/-- `struct pipe`; its page is `freed` by kfree.  `ref` are the reference counts of
    the file of the read end (`false`) and of the write end (`true`), and `fds` the
    descriptors that each process has of them. -/
structure Mem (T : Type) where
  data : Fin 512 → UInt8
  nread : UInt32
  nwrite : UInt32
  readopen : Bool
  writeopen : Bool
  freed : Bool
  ref : Bool → ℕ
  fds : T → Bool → ℕ
  sent : List (T × UInt8)
  reads : List (Read T)
  writes : T → List (List UInt8)

inductive Chan where
  | nread
  | nwrite
  deriving DecidableEq, Repr

/-- The program points of a process.  `src` is what copyin gives for each byte of
    the buffer, and `dst` if copyout succeeds there.  A write has put `i` bytes, of
    which `fresh` since its last wakeup; a read has copied out `got`. -/
inductive Point where
  | user
  | write (src : ℕ → Option UInt8) (n : ℤ)
  | writeLoop (src : ℕ → Option UInt8) (n : ℤ) (i fresh : ℕ)
  | writeFail (src : ℕ → Option UInt8) (n : ℤ) (i fresh : ℕ)
  | writeSleep (src : ℕ → Option UInt8) (n : ℤ) (i : ℕ)
  | writeWakeup (src : ℕ → Option UInt8) (n : ℤ) (i : ℕ)
  | writeRelease (src : ℕ → Option UInt8) (n : ℤ) (i : ℕ)
  | writeReturn (src : ℕ → Option UInt8) (n : ℤ) (i : ℕ) (r : ℤ)
  | read (dst : ℕ → Bool) (n : ℤ)
  | readLoop (dst : ℕ → Bool) (n : ℤ)
  | readFail (dst : ℕ → Bool) (n : ℤ)
  | readSleep (dst : ℕ → Bool) (n : ℤ)
  | readCopy (dst : ℕ → Bool) (n : ℤ) (got : List UInt8)
  | readWakeup (dst : ℕ → Bool) (n : ℤ) (got : List UInt8)
  | readRelease (dst : ℕ → Bool) (n : ℤ) (got : List UInt8)
  | readReturn (dst : ℕ → Bool) (n : ℤ) (got : List UInt8) (r : ℤ)
  | close (writable : Bool)
  | closeEnd (writable : Bool)
  | closeWakeup (writable : Bool)
  | closeTest
  | closeRelease (both : Bool)
  | closeFree

/-- The bytes of a buffer below `i`. -/
def bytes (src : ℕ → Option UInt8) (i : ℕ) : List UInt8 := (List.range i).filterMap src

section
variable {T : Type} [DecidableEq T]

namespace Mem
variable (m : Mem T)

/-- The bytes in the pipe. -/
def items : List UInt8 := Ring.items m.nread m.nwrite m.data

/-- `pi->data[pi->nwrite++ % PIPESIZE] = ch`. -/
def put (t : T) (ch : UInt8) : Mem T :=
  { m with
    data := Function.update m.data (Ring.cell 512 m.nwrite.toNat) ch
    nwrite := m.nwrite + 1
    sent := m.sent ++ [(t, ch)] }

/-- `pi->data[pi->nread % PIPESIZE]`. -/
def first : UInt8 := m.data (Ring.cell 512 m.nread.toNat)

/-- `pi->nread++`. -/
def take : Mem T := { m with nread := m.nread + 1 }

def setOpen (w b : Bool) : Mem T :=
  match w with
  | true => { m with writeopen := b }
  | false => { m with readopen := b }

/-- `pi->writeopen` or `pi->readopen`. -/
def isOpen (w : Bool) : Bool :=
  match w with
  | true => m.writeopen
  | false => m.readopen

def setFreed : Mem T := { m with freed := true }

/-- The process has one descriptor more. -/
def dup (t : T) (w : Bool) : Mem T :=
  { m with
    ref := Function.update m.ref w (m.ref w + 1)
    fds := Function.update m.fds t (Function.update (m.fds t) w (m.fds t w + 1)) }

/-- The child gets a copy of the descriptors. -/
def fork (t t' : T) : Mem T :=
  { m with
    ref := fun w => m.ref w + m.fds t w
    fds := Function.update m.fds t' (m.fds t) }

/-- The process has one descriptor less. -/
def drop (t : T) (w : Bool) : Mem T :=
  { m with
    ref := Function.update m.ref w (m.ref w - 1)
    fds := Function.update m.fds t (Function.update (m.fds t) w (m.fds t w - 1)) }

/-- A write ends that has put these bytes. -/
def wrote (t : T) (bs : List UInt8) : Mem T :=
  { m with writes := Function.update m.writes t (m.writes t ++ [bs]) }

/-- A read takes no more. -/
def ended (r : Read T) : Mem T := { m with reads := m.reads ++ [r] }

end Mem

abbrev PInstr (T : Type) := Instr (Mem T) Chan Point

/-- pipewrite, piperead and pipeclose: the instruction at a point, for the
    process `t`; `killed` is what `killed(pr)` gives. -/
def exec (t : T) (q : Point) (m : Mem T) (killed : Bool) : Option (PInstr T) :=
  match q with
  | .user => none
  -- pipewrite
  | .write src n => some (.acquire (.writeLoop src n 0 0))
  | .writeLoop src n i fresh =>
    if i < n then
      if m.readopen = false ∨ killed = true then some (.run m (.writeFail src n i fresh))
      else if m.nwrite = m.nread + 512 then some (.wakeup .nread (.writeSleep src n i))
      else
        match src i with
        | some ch => some (.run (m.put t ch) (.writeLoop src n (i + 1) (fresh + 1)))
        | none => some (.run m (.writeWakeup src n i))
    else some (.run m (.writeWakeup src n i))
  | .writeFail src n i _ => some (.release (.writeReturn src n i (-1)))
  | .writeSleep src n i => some (.sleep .nwrite (.writeLoop src n i 0))
  | .writeWakeup src n i => some (.wakeup .nread (.writeRelease src n i))
  | .writeRelease src n i => some (.release (.writeReturn src n i i))
  | .writeReturn src _ i _ => some (.run (m.wrote t (bytes src i)) .user)
  -- piperead
  | .read dst n => some (.acquire (.readLoop dst n))
  | .readLoop dst n =>
    if m.nread = m.nwrite ∧ m.writeopen = true then
      if killed = true then some (.run m (.readFail dst n)) else some (.run m (.readSleep dst n))
    else some (.run m (.readCopy dst n []))
  | .readFail dst n => some (.release (.readReturn dst n [] (-1)))
  | .readSleep dst n => some (.sleep .nread (.readLoop dst n))
  | .readCopy dst n got =>
    if got.length < n ∧ m.nread ≠ m.nwrite then
      if dst got.length = true then some (.run m.take (.readCopy dst n (got ++ [m.first])))
      else some (.run (m.take.ended ⟨t, got, some m.first⟩) (.readWakeup dst n got))
    else some (.run (m.ended ⟨t, got, none⟩) (.readWakeup dst n got))
  | .readWakeup dst n got => some (.wakeup .nwrite (.readRelease dst n got))
  | .readRelease dst n got => some (.release (.readReturn dst n got got.length))
  | .readReturn _ _ _ _ => some (.run m .user)
  -- pipeclose
  | .close w => some (.acquire (.closeEnd w))
  | .closeEnd w => some (.run (m.setOpen w false) (.closeWakeup w))
  | .closeWakeup w => some (.wakeup (if w then .nread else .nwrite) .closeTest)
  | .closeTest =>
    some (.run m (.closeRelease (decide (m.readopen = false ∧ m.writeopen = false))))
  | .closeRelease both => some (.release (if both then .closeFree else .user))
  | .closeFree => some (.run m.setFreed .user)

/-- What a process may do: pipe.c, or a system call on a descriptor that it has.
    fileclose calls pipeclose when it drops the last reference. -/
inductive Does (t : T) : Point → Mem T → Bool → PInstr T → Prop
  | code {q m k i} : exec t q m k = some i → Does t q m k i
  | write {m k src n} : 0 < m.fds t true → Does t .user m k (.run m (.write src n))
  | read {m k dst n} : 0 < m.fds t false → Does t .user m k (.run m (.read dst n))
  | dup {m k w} : 0 < m.fds t w → Does t .user m k (.run (m.dup t w) .user)
  | fork {m k t'} : (∀ w, m.fds t' w = 0) → Does t .user m k (.run (m.fork t t') .user)
  | close {m k w} : 0 < m.fds t w →
      Does t .user m k (.run (m.drop t w) (if m.ref w = 1 then .close w else .user))

def code : Code T (Mem T) Chan Point where
  instr := Does

abbrev PState (T : Type) := State T (Mem T) Chan Point

/-- The pipe behind sys_pipe in the process `p`. -/
def Mem.opened (p : T) (data : Fin 512 → UInt8) : Mem T where
  data := data
  nread := 0
  nwrite := 0
  readopen := true
  writeopen := true
  freed := false
  ref _ := 1
  fds t _ := if t = p then 1 else 0
  sent := []
  reads := []
  writes _ := []

/-- The state behind sys_pipe (pipealloc) in the process `p`. -/
structure Starts (p : T) (σ : PState T) : Prop where
  mem : ∃ data, σ.mem = .opened p data
  pc : ∀ t, σ.pc t = .user
  ctx : ∀ t, σ.ctx t = .awake
  owner : σ.owner = none

/-- A process and its child. -/
inductive Proc where
  | parent
  | child
  deriving DecidableEq, Repr

/-- What a process chooses to do in user mode. -/
inductive Act (T : Type) where
  | none
  | write (src : ℕ → Option UInt8) (n : ℤ)
  | read (dst : ℕ → Bool) (n : ℤ)
  | dup (w : Bool)
  | fork (child : T)
  | close (w : Bool)

/-- The next instruction of a process. -/
def pick (a : Act T) (t : T) (q : Point) (m : Mem T) (k : Bool) : Option (PInstr T) :=
  match q with
  | .user =>
    match a with
    | .none => none
    | .write src n => if 0 < m.fds t true then some (.run m (.write src n)) else none
    | .read dst n => if 0 < m.fds t false then some (.run m (.read dst n)) else none
    | .dup w => if 0 < m.fds t w then some (.run (m.dup t w) .user) else none
    | .fork t' =>
      if m.fds t' false = 0 ∧ m.fds t' true = 0 then some (.run (m.fork t t') .user) else none
    | .close w =>
      if 0 < m.fds t w then
        some (.run (m.drop t w) (if m.ref w = 1 then .close w else .user))
      else none
  | q => exec t q m k

theorem pick_does {a : Act T} {t : T} {q : Point} {m : Mem T} {k : Bool} {i : PInstr T}
    (h : pick a t q m k = some i) : Does t q m k i := by
  unfold pick at h
  split at h
  · split at h
    · cases h
    · split_ifs at h with hf; cases h; exact .write hf
    · split_ifs at h with hf; cases h; exact .read hf
    · split_ifs at h with hf; cases h; exact .dup hf
    · split_ifs at h with hf
      cases h
      exact .fork fun w => by cases w; exacts [hf.1, hf.2]
    · rename_i w
      by_cases hf : 0 < m.fds t w
      · rw [if_pos hf] at h; cases h; exact .close hf
      · rw [if_neg hf] at h; cases h
  · exact .code h

/-- The state behind sys_pipe in the process `p`, when the page of the pipe holds
    zeros. -/
def start (p : T) : PState T where
  mem := .opened p fun _ => 0
  pc _ := .user
  ctx _ := .awake
  owner := none
  killed _ := false

theorem start_starts (p : T) : Starts p (start p) :=
  ⟨⟨_, rfl⟩, fun _ => rfl, fun _ => rfl, rfl⟩

theorem reach_play {p : T} {ok : PState T → T → Prop} (okb : PState T → T → Bool)
    (hok : ∀ σ t, okb σ t = true → ok σ t) {es : List (Event T (Act T))} {β : Type}
    {f : PState T → β} {b : β} (h : (play pick okb es (start p)).map f = some b) :
    ∃ σ, Reach code (Starts p) ok σ ∧ f σ = b :=
  reach_of_play hok (fun _ _ _ _ _ _ hi => pick_does hi) (start_starts p) h

end

end OSLabs.Pipe
