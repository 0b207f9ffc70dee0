import Mathlib.Data.Nat.Notation

/-!
# Constants of `memlayout.h` and `mmu.h`
-/

namespace Xv6

def EXTMEM : ℕ := 1048576

/-- Top physical memory. -/
def PHYSTOP : ℕ := 234881024

def DEVSPACE : ℕ := 4261412864

def KERNBASE : ℕ := 2147483648

def KERNLINK : ℕ := KERNBASE + EXTMEM

/-- Bytes mapped by a page. -/
def PGSIZE : ℕ := 4096

end Xv6
