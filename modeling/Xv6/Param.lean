import Mathlib.Data.Nat.Notation

/-!
# Constants of `param.h`

`NCONTAINER` and `NPROC_CONTAINER` are not here: the container table is modelled for every capacity,
and `param.h` sets both to 2.
-/

namespace Xv6

def NPROC : ℕ := 64

theorem NPROC_pos : 0 < NPROC := by decide

theorem one_lt_NPROC : 1 < NPROC := by decide

theorem two_lt_NPROC : 2 < NPROC := by decide

/-- Open files per process. -/
def NOFILE : ℕ := 16

/-- Open files per system. -/
def NFILE : ℕ := 100

def NINODE : ℕ := 50

def MAXOPBLOCKS : ℕ := 10

def LOGSIZE : ℕ := MAXOPBLOCKS * 3

def FSSIZE : ℕ := 1000

def MSGBUFFSIZE : ℕ := 200

/-- Bytes of a message. -/
def MSGSIZE : ℕ := 8

def MAX_PAGES : ℕ := 8

def MAX_FILES : ℕ := 8

end Xv6
