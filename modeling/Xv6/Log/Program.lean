import Xv6.Lib.CArray
import Xv6.Lib.Prog
import Xv6.Param
import Mathlib.Data.List.FinRange

/-!
# The log

The functions of `log.c`. Those that work on the disk are programs whose accesses are the block
reads and writes; the others are given by their sections under the lock. A disk block is its 32-bit
words, so that the header block can hold a `struct logheader`: the count in word `0` and the block
numbers in the words after it.

Of the buffer cache only the dirty buffers matter: those that `log_write` has pinned, whose contents
are not on the disk yet. Every other buffer holds what the disk does. `bread` gives the contents of
a dirty buffer or of the disk, and `bwrite` writes a block through and leaves its buffer clean.
`writes` records the order in which blocks reach the disk.

The lock, the device number, and the reference counts of the buffers are left out.
-/

namespace Xv6

open Function

abbrev Block := Fin 128 → ℕ

/-- `struct logheader`. -/
structure LogHeader where
  n : ℕ
  block : Fin LOGSIZE → ℕ

/-- `struct log`. -/
structure Log where
  start : ℕ
  size : ℕ
  outstanding : ℤ
  committing : Bool
  lh : LogHeader

/-- The disk, and what the kernel has in memory about it. -/
structure Storage where
  disk : ℕ → Block
  /-- The dirty buffers. -/
  cache : ℕ → Option Block
  /-- The blocks written, the newest first. -/
  writes : List ℕ
  log : Log

namespace LogHeader

def zero : LogHeader := ⟨0, fun _ => 0⟩

def word (i : Fin LOGSIZE) : Fin 128 := ⟨i + 1, Nat.lt_of_le_of_lt i.isLt (by decide)⟩

def store (lh : LogHeader) (hb : Block) : Block := fun w =>
  if w = 0 then lh.n
  else if h : (w : ℕ) - 1 < LOGSIZE then
    if (w : ℕ) - 1 < lh.n then lh.block ⟨w - 1, h⟩ else hb w
  else hb w

def load (hb : Block) (lh : LogHeader) : LogHeader where
  n := hb 0
  block := fun i => if (i : ℕ) < hb 0 then hb (word i) else lh.block i

def record (b : ℕ) (lh : LogHeader) : Option LogHeader :=
  match (List.finRange LOGSIZE).find? fun i : Fin LOGSIZE => i < lh.n ∧ lh.block i = b with
  | some i => some { lh with block := update lh.block i b }
  | none => (CArray.wr lh.block lh.n b).map fun block => ⟨lh.n + 1, block⟩

end LogHeader

/-- What stops the kernel in `log.c`: its panics, and a write outside `log.lh.block`. -/
inductive LogFault
  /-- `too big a transaction`. -/
  | tooBig
  /-- `log_write outside of trans`. -/
  | outsideTrans
  /-- `log.committing`. -/
  | committing
  | overflow
  deriving DecidableEq

namespace Log

/-- The log that `initlog` finds when recovery is done, at block `logstart` and with `nlog` blocks.
-/
def init (logstart nlog : ℕ) : Log := ⟨logstart, nlog, 0, false, .zero⟩

def beginOp (log : Log) : Option Log :=
  if log.committing then none
  else if log.lh.n + (log.outstanding + 1) * MAXOPBLOCKS > LOGSIZE then none
  else some { log with outstanding := log.outstanding + 1 }

def checkWrite (log : Log) : Option LogFault :=
  if log.lh.n ≥ LOGSIZE ∨ (log.lh.n : ℤ) ≥ log.size - 1 then some .tooBig
  else if log.outstanding < 1 then some .outsideTrans
  else none

def endOp (log : Log) : Except LogFault (Bool × Log) :=
  let log := { log with outstanding := log.outstanding - 1 }
  if log.committing then .error .committing
  else if log.outstanding = 0 then .ok (true, { log with committing := true })
  else .ok (false, log)

end Log

namespace Storage

def view (s : Storage) (b : ℕ) : Block := (s.cache b).getD (s.disk b)

def setHeader (lh : LogHeader) (s : Storage) : Storage := { s with log := { s.log with lh := lh } }

def written (b : ℕ) (data : Block) (s : Storage) : Storage where
  disk := update s.disk b data
  cache := update s.cache b none
  writes := b :: s.writes
  log := s.log

open Prog

def bread (b : ℕ) : Prog Storage Block := get fun s => some (s.view b)

def bwrite (b : ℕ) (data : Block) : Prog Storage Unit := set fun s => some (s.written b data)

def getLog : Prog Storage Log := get fun s => some s.log

/-- `log.lh.block[tail]`. -/
def lhBlock (tail : ℕ) : Prog Storage ℕ := get fun s => CArray.rd s.log.lh.block tail

def installTrans : Prog Storage Unit := do
  let log ← getLog
  forRange (fun tail => do
    let lbuf ← bread (log.start + tail + 1)
    let b ← lhBlock tail
    let _dbuf ← bread b
    bwrite b lbuf) 0 log.lh.n

def readHead : Prog Storage Unit := do
  let log ← getLog
  let buf ← bread log.start
  set fun s => if buf 0 ≤ LOGSIZE then some (s.setHeader (s.log.lh.load buf)) else none

def writeHead : Prog Storage Unit := do
  let log ← getLog
  let buf ← bread log.start
  let lh ← get fun s => if s.log.lh.n ≤ LOGSIZE then some s.log.lh else none
  bwrite log.start (lh.store buf)

/-- `log.lh.n = 0`. -/
def clearHead : Prog Storage Unit := set fun s => some (s.setHeader { s.log.lh with n := 0 })

def recoverFromLog : Prog Storage Unit := do
  readHead
  installTrans
  clearHead
  writeHead

def writeLog : Prog Storage Unit := do
  let log ← getLog
  forRange (fun tail => do
    let _to ← bread (log.start + tail + 1)
    let b ← lhBlock tail
    let from_ ← bread b
    bwrite (log.start + tail + 1) from_) 0 log.lh.n

def commit : Prog Storage Unit := do
  let log ← getLog
  if 0 < log.lh.n then
    writeLog
    writeHead
    installTrans
    clearHead
    writeHead

def reboot (s : Storage) : Storage :=
  { s with
    cache := fun _ => none
    log := { s.log with outstanding := 0, committing := false, lh := .zero } }

end Storage

end Xv6
