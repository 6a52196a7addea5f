/-
  The log of the file system (log.c).

  `code` is what processes do with the log: a process begins an operation, writes
  blocks in it, each followed by log_write, and ends it; the last one to end
  commits.  The processes share the lock of the log and sleep on it (Monitor).
  `recover` is what recover_from_log does to a disk, and `recoverTake` what it has
  done behind some of its writes, when the machine crashes again.

  A block is an array of 256 words; of the log header, the first is `n` and the
  next ones are `block`.  The buffer cache gives for each block what bread gives.
  A buffer that is neither pinned nor held by a process may be recycled; then the
  next bread reads the disk.

  The fields of `Mem` below `buf` are not part of the kernel.  They note which
  operation a process is in, how many blocks that has added to the log, and all
  writes of all operations, of which the first `committed` have been committed.
-/
import OSLabs.Lib.Monitor
import OSLabs.Lib.RedoLog
import Mathlib.Data.Fin.Basic

namespace OSLabs.Log

open Monitor

abbrev Block := Fin 256 → UInt32

abbrev Disk := UInt32 → Block

/-- A write of a block by the operation `op`. -/
structure Write where
  op : ℕ
  block : UInt32
  data : Block

/-- The block that is written, and what it holds then. -/
def Write.effect (w : Write) : UInt32 × Block := (w.block, w.data)

/-- `log.start` and `log.size`: where the log is on the disk.  It has a block for
    its header. -/
structure Layout where
  start : UInt32
  size : ℕ
  pos : 0 < size

variable (L : Layout)

/-- `log.start+tail+1`. -/
def Layout.slot (tail : ℕ) : UInt32 := L.start + UInt32.ofNat tail + 1

/-- The blocks of the log. -/
def Layout.InLog (b : UInt32) : Prop := (b - L.start).toNat < L.size

instance (b : UInt32) : Decidable (L.InLog b) := inferInstanceAs (Decidable (_ < _))

/-- read_head: the blocks that the header names. -/
def readHead (b : Block) : List UInt32 :=
  (List.range (b 0).toNat).map fun i => b (Fin.ofNat 256 (i + 1))

/-- write_head: the header block that names the blocks. -/
def setHead (b : Block) (lh : List UInt32) : Block := fun i =>
  if i.val = 0 then UInt32.ofNat lh.length
  else
    match lh[i.val - 1]? with
    | some c => c
    | none => b i

/-! ## Recovery -/

/-- install_trans(1): the blocks that the header names are copied to their homes. -/
def installTrans (d : Disk) : Disk := RedoLog.install L.slot (readHead (d L.start)) 0 d

/-- write_head, for an empty log. -/
def clearHead (d : Disk) : Disk := Function.update d L.start (setHead (d L.start) [])

/-- recover_from_log. -/
def recover (d : Disk) : Disk := clearHead L (installTrans L d)

/-- The disk behind the first `k` writes of recover_from_log. -/
def recoverTake (k : ℕ) (d : Disk) : Disk :=
  if k ≤ (readHead (d L.start)).length then
    RedoLog.install L.slot ((readHead (d L.start)).take k) 0 d
  else recover L d

/-! ## Operations -/

/-- `log`, the buffer cache, and the disk.  `buf` is the buffer that a process has
    changed and not released, and `pins` counts the `bpin`s of a buffer. -/
structure Mem (T : Type) where
  outstanding : ℕ
  committing : Bool
  lh : List UInt32
  cache : Disk
  pins : UInt32 → ℕ
  disk : Disk
  buf : T → Option UInt32
  op : T → Option ℕ
  used : T → ℕ
  next : ℕ
  hist : List Write
  committed : ℕ

/-- The program points of a process, named by the function and what comes next
    there. -/
inductive Point where
  | user
  | begin
  | beginTest
  | beginSleep
  | beginRelease
  | logWrite (b : UInt32)
  | logTest (b : UInt32)
  | logRelease
  | brelse
  | endOp
  | endDec
  | endWakeup
  | endRelease (commit : Bool)
  | commit
  | writeLog (tail : ℕ)
  | writeHead
  | install (tail : ℕ)
  | erase
  | eraseHead
  | commitAcquire
  | commitDone
  | commitWakeup
  | commitRelease
  | panic
  deriving DecidableEq, Repr

section
variable {T : Type} [DecidableEq T]

namespace Mem
variable (m : Mem T)

/-- `log.outstanding += 1`. -/
def begin (t : T) : Mem T :=
  { m with
    outstanding := m.outstanding + 1
    op := Function.update m.op t (some m.next)
    used := Function.update m.used t 0
    next := m.next + 1 }

/-- The process changes a buffer. -/
def change (t : T) (id : ℕ) (b : UInt32) (v : Block) : Mem T :=
  { m with
    cache := Function.update m.cache b v
    buf := Function.update m.buf t (some b)
    hist := m.hist ++ [⟨id, b, v⟩] }

/-- The end of log_write: a block that is in the log already is absorbed. -/
def log (t : T) (b : UInt32) : Mem T :=
  if b ∈ m.lh then m
  else
    { m with
      lh := m.lh ++ [b]
      pins := Function.update m.pins b (m.pins b + 1)
      used := Function.update m.used t (m.used t + 1) }

def brelse (t : T) : Mem T := { m with buf := Function.update m.buf t none }

/-- `log.outstanding -= 1`. -/
def ended (t : T) : Mem T :=
  { m with
    outstanding := m.outstanding - 1
    op := Function.update m.op t none }

def setCommitting (b : Bool) : Mem T := { m with committing := b }

/-- memmove and bwrite. -/
def bwrite (b : UInt32) (v : Block) : Mem T :=
  { m with
    cache := Function.update m.cache b v
    disk := Function.update m.disk b v }

/-- write_head. -/
def writeHead (L : Layout) : Mem T := m.bwrite L.start (setHead (m.cache L.start) m.lh)

def bunpin (b : UInt32) : Mem T := { m with pins := Function.update m.pins b (m.pins b - 1) }

def clear : Mem T := { m with lh := [] }

/-- All writes are committed. -/
def commit : Mem T := { m with committed := m.hist.length }

/-- The buffer is recycled. -/
def evict (b : UInt32) : Mem T := { m with cache := Function.update m.cache b (m.disk b) }

end Mem

abbrev LInstr (T : Type) := Instr (Mem T) Unit Point

/-- begin_op, log_write, end_op and commit: the instruction at a point, for the
    process `t`.  `MAXOPBLOCKS` is 10, and `LOGSIZE` 30. -/
def exec (t : T) (q : Point) (m : Mem T) : Option (LInstr T) :=
  match q with
  | .user => none
  -- begin_op
  | .begin => some (.acquire .beginTest)
  | .beginTest =>
    if m.committing = true then some (.run m .beginSleep)
    else if m.lh.length + (m.outstanding + 1) * 10 > 30 then some (.run m .beginSleep)
    else some (.run (m.begin t) .beginRelease)
  | .beginSleep => some (.sleep () .beginTest)
  | .beginRelease => some (.release .user)
  -- log_write
  | .logWrite b => some (.acquire (.logTest b))
  | .logTest b =>
    if m.lh.length ≥ 30 ∨ m.lh.length ≥ L.size - 1 then some (.run m .panic)
    else if m.outstanding < 1 then some (.run m .panic)
    else some (.run (m.log t b) .logRelease)
  | .logRelease => some (.release .brelse)
  | .brelse => some (.run (m.brelse t) .user)
  -- end_op
  | .endOp => some (.acquire .endDec)
  | .endDec =>
    if m.committing = true then some (.run (m.ended t) .panic)
    else if (m.ended t).outstanding = 0 then
      some (.run ((m.ended t).setCommitting true) (.endRelease true))
    else some (.run (m.ended t) .endWakeup)
  | .endWakeup => some (.wakeup () (.endRelease false))
  | .endRelease commit => some (.release (if commit then .commit else .user))
  -- commit, with write_log, write_head and install_trans(0)
  | .commit => if 0 < m.lh.length then some (.run m (.writeLog 0)) else some (.run m .commitAcquire)
  | .writeLog tail =>
    match m.lh[tail]? with
    | some b => some (.run (m.bwrite (L.slot tail) (m.cache b)) (.writeLog (tail + 1)))
    | none => some (.run m .writeHead)
  | .writeHead => some (.run (m.writeHead L).commit (.install 0))
  | .install tail =>
    match m.lh[tail]? with
    | some b => some (.run ((m.bwrite b (m.cache (L.slot tail))).bunpin b) (.install (tail + 1)))
    | none => some (.run m .erase)
  | .erase => some (.run m.clear .eraseHead)
  | .eraseHead => some (.run (m.writeHead L) .commitAcquire)
  -- end_op, behind commit
  | .commitAcquire => some (.acquire .commitDone)
  | .commitDone => some (.run (m.setCommitting false) .commitWakeup)
  | .commitWakeup => some (.wakeup () .commitRelease)
  | .commitRelease => some (.release .user)
  | .panic => none

/-- What a process may do: log.c; begin an operation, change a buffer in it and
    call log_write, and end it; or recycle a buffer that is not in use. -/
inductive Does (t : T) : Point → Mem T → LInstr T → Prop
  | code {q m i} : exec L t q m = some i → Does t q m i
  | begin {m} : m.op t = none → Does t .user m (.run m .begin)
  | write {m id b v} : m.op t = some id → ¬ L.InLog b →
      Does t .user m (.run (m.change t id b v) (.logWrite b))
  | endOp {m id} : m.op t = some id → Does t .user m (.run m .endOp)
  | evict {m b} : m.pins b = 0 → (∀ t', m.buf t' ≠ some b) →
      Does t .user m (.run (m.evict b) .user)

def code : Code T (Mem T) Unit Point where
  instr t q m _ := Does L t q m

abbrev LState (T : Type) := State T (Mem T) Unit Point

/-- The log behind initlog, on the disk `d`. -/
def Mem.booted (d : Disk) : Mem T where
  outstanding := 0
  committing := false
  lh := []
  cache := d
  pins _ := 0
  disk := d
  buf _ := none
  op _ := none
  used _ := 0
  next := 0
  hist := []
  committed := 0

/-- The state behind initlog, on a disk whose log is empty. -/
structure Starts (d : Disk) (σ : LState T) : Prop where
  empty : readHead (d L.start) = []
  mem : σ.mem = .booted d
  pc : ∀ t, σ.pc t = .user
  ctx : ∀ t, σ.ctx t = .awake
  owner : σ.owner = none

/-! ## Running -/

/-- What a process chooses to do in user mode. -/
inductive Act where
  | none
  | begin
  | write (b : UInt32) (v : Block)
  | endOp

/-- The next instruction of a process. -/
def pick (a : Act) (t : T) (q : Point) (m : Mem T) (_ : Bool) : Option (LInstr T) :=
  match q with
  | .user =>
    match a, m.op t with
    | .begin, none => some (.run m .begin)
    | .write b v, some id =>
      if L.InLog b then none else some (.run (m.change t id b v) (.logWrite b))
    | .endOp, some _ => some (.run m .endOp)
    | _, _ => none
  | q => exec L t q m

theorem pick_does {a : Act} {t : T} {q : Point} {m : Mem T} {k : Bool} {i : LInstr T}
    (h : pick L a t q m k = some i) : Does L t q m i := by
  unfold pick at h
  split at h
  · split at h
    · rename_i hop; cases h; exact .begin hop
    · rename_i hop
      split_ifs at h with hb
      cases h; exact .write hop hb
    · rename_i hop; cases h; exact .endOp hop
    · cases h
  · exact .code h

/-- The state behind initlog on the disk `d`. -/
def start (d : Disk) : LState T where
  mem := .booted d
  pc _ := .user
  ctx _ := .awake
  owner := none
  killed _ := false

theorem reach_play {d : Disk} (hd : readHead (d L.start) = []) {ok : LState T → T → Prop}
    (okb : LState T → T → Bool) (hok : ∀ σ t, okb σ t = true → ok σ t)
    {es : List (Event T Act)} {β : Type} {f : LState T → β} {b : β}
    (h : (play (pick L) okb es (start d)).map f = some b) :
    ∃ σ, Reach (code L) (Starts L d) ok σ ∧ f σ = b :=
  reach_of_play hok (fun _ _ _ _ _ _ hi => pick_does L hi)
    ⟨hd, rfl, fun _ => rfl, fun _ => rfl, rfl⟩ h

end

/-- The log that mkfs makes: `nlog` is `LOGSIZE`. -/
def mkfs : Layout := ⟨2, 30, by decide⟩

/-- A disk of zeros. -/
def blank : Disk := fun _ _ => 0

theorem blank_empty (L : Layout) : readHead (blank L.start) = [] := rfl

end OSLabs.Log
