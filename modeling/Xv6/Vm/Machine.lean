import Xv6.Lib.Bytes
import Xv6.Lib.Task
import Xv6.Lib.Word
import Xv6.Memlayout

/-!
# Pages and page tables

`kalloc.c` and the part of `vm.c` that builds, copies and frees address spaces, as programs over the
operations on physical pages of `Op`. A page is known by its number, which is its physical address
divided by `PGSIZE`; what the source reads and writes through `P2V` of an address is that page. A
pointer to an entry of a page table is the number of the page and the index of the word in it.

Virtual addresses and sizes are `uint`s. The loops have a bound on the number of their passes, which
is a panic of its own: nothing that is proved of them allows it.
-/

namespace Xv6.Vm

/-! ## Constants of `mmu.h` -/

def NPDENTRIES : ℕ := 1024

/-- Present. -/
def PTE_P : ℕ := 1

/-- Writeable. -/
def PTE_W : ℕ := 2

/-- User. -/
def PTE_U : ℕ := 4

/-- Page directory index. -/
def PDX (va : ℕ) : ℕ := va / 4194304 % 1024

/-- Page table index. -/
def PTX (va : ℕ) : ℕ := va / 4096 % 1024

/-- `PGADDR(d, 0, 0)` -/
def PGADDR (d : ℕ) : ℕ := uint (d * 4194304)

/-- `PGROUNDUP(sz)` -/
@[irreducible] def PGROUNDUP (sz : ℕ) : ℕ := uint (sz + 4095) / PGSIZE * PGSIZE

/-- `PGROUNDDOWN(a)` -/
def PGROUNDDOWN (a : ℕ) : ℕ := a / PGSIZE * PGSIZE

/-- `pte & PTE_P` -/
def Present (pte : ℕ) : Prop := pte % 2 = 1

/-- `pte & PTE_U` -/
def User (pte : ℕ) : Prop := pte / 4 % 2 = 1

def pageOf (pte : ℕ) : ℕ := pte / PGSIZE

/-- `PTE_FLAGS(pte)` -/
def PTE_FLAGS (pte : ℕ) : ℕ := pte % PGSIZE

instance (pte : ℕ) : Decidable (Present pte) := inferInstanceAs (Decidable (pte % 2 = 1))

instance (pte : ℕ) : Decidable (User pte) := inferInstanceAs (Decidable (pte / 4 % 2 = 1))

/-! ## Memory -/

/-- Where `kernel.ld` puts the symbols `data` and `end`, as physical addresses. -/
structure Layout where
  data : ℕ
  kend : ℕ
  data_aligned : data % PGSIZE = 0
  extmem_lt : EXTMEM < data
  data_lt : data < kend
  kend_le : kend ≤ PHYSTOP

def someLayout : Layout where
  data := 1081344
  kend := 1130496
  data_aligned := rfl
  extmem_lt := by decide
  data_lt := by decide
  kend_le := by decide

def Layout.Usable (L : Layout) (pn : ℕ) : Prop := L.kend ≤ pn * PGSIZE ∧ pn * PGSIZE < PHYSTOP

instance (L : Layout) (pn : ℕ) : Decidable (L.Usable pn) :=
  inferInstanceAs (Decidable (L.kend ≤ pn * PGSIZE ∧ pn * PGSIZE < PHYSTOP))

/-- Physical memory, and `kmem.freelist`. The links of the list are in the pages themselves, which
nothing reads while they are on it. -/
structure Mem where
  page : ℕ → Bytes
  free : List ℕ

/-- The operations. -/
inductive Op
  | kalloc
  /-- `kfree`; `false` for its panic. -/
  | kfree (pn : ℕ)
  /-- A read of word `k` of a page. -/
  | load (pn k : ℕ)
  | store (pn k v : ℕ)
  /-- `memset` of a whole page. -/
  | memset (pn : ℕ) (c : Byte)
  /-- `memmove` of a whole page. -/
  | memmove (dst src : ℕ)
  /-- `memmove` of some bytes into a page. -/
  | write (pn off : ℕ) (src : List Byte)

abbrev Op.Answer : Op → Type
  | .kalloc => Option ℕ
  | .kfree _ => Bool
  | .load _ _ => ℕ
  | .store _ _ _ | .memset _ _ | .memmove _ _ | .write _ _ _ => Unit

def Mem.setPage (m : Mem) (pn : ℕ) (b : Bytes) : Mem :=
  { m with page := Function.update m.page pn b }

def Mem.freed (m : Mem) (pn : ℕ) : Mem :=
  { m.setPage pn (fun _ => 1#8) with free := pn :: m.free }

def Op.perform (L : Layout) : (o : Op) → Mem → Option (o.Answer × Mem)
  | .kalloc, m =>
    match m.free with
    | [] => some (none, m)
    | pn :: free => some (some pn, { m with free := free })
  | .kfree pn, m =>
    if L.Usable pn then some (true, m.freed pn) else some (false, m)
  | .load pn k, m => some ((m.page pn).word k, m)
  | .store pn k v, m => some ((), m.setPage pn ((m.page pn).setWord k v))
  | .memset pn c, m => some ((), m.setPage pn fun _ => c)
  | .memmove dst src, m => some ((), m.setPage dst (m.page src))
  | .write pn off src, m => some ((), m.setPage pn ((m.page pn).splice off src))

abbrev Sys := Task Op Op.Answer

/-- One operation. -/
abbrev call (o : Op) : Sys o.Answer := Task.call o

/-- `if(!c) panic(why)` -/
def panicUnless (c : Prop) [Decidable c] (why : String) : Sys Unit :=
  if c then pure () else .panic why

def kfree (pn : ℕ) : Sys Unit := do
  let ok ← call (.kfree pn)
  panicUnless (ok = true) "kfree"

/-! ## Page tables -/

def walkpgdir (pgdir va : ℕ) (alloc : Bool) : Sys (Option (ℕ × ℕ)) := do
  let pde ← call (.load pgdir (PDX va))
  if Present pde then return some (pageOf pde, PTX va)
  else if alloc = false then return none
  else do
    match ← call .kalloc with
    | none => return none
    | some pgtab => do
      call (.memset pgtab 0#8)
      call (.store pgdir (PDX va) (pgtab * PGSIZE ||| PTE_P ||| PTE_W ||| PTE_U))
      return some (pgtab, PTX va)

def mappagesFrom (pgdir last perm : ℕ) : ℕ → ℕ → ℕ → Sys Bool
  | 0, _, _ => .panic "mappages: passes"
  | fuel + 1, a, pa => do
    match ← walkpgdir pgdir a true with
    | none => return false
    | some x => do
      let pte ← call (.load x.1 x.2)
      panicUnless (¬ Present pte) "remap"
      call (.store x.1 x.2 (pa ||| perm ||| PTE_P))
      if a = last then return true
      else mappagesFrom pgdir last perm fuel (uint (a + PGSIZE)) (uint (pa + PGSIZE))

def mappages (pgdir va size pa perm : ℕ) : Sys Bool :=
  mappagesFrom pgdir (PGROUNDDOWN (uintOf ((va : ℤ) + size - 1))) perm 1048576 (PGROUNDDOWN va) pa

def deallocuvmFrom (pgdir oldsz : ℕ) : ℕ → ℕ → Sys Unit
  | 0, _ => .panic "deallocuvm: passes"
  | fuel + 1, a =>
    if a < oldsz then do
      match ← walkpgdir pgdir a false with
      | none =>
        deallocuvmFrom pgdir oldsz fuel (uint (uintOf ((PGADDR (PDX a + 1) : ℤ) - PGSIZE) + PGSIZE))
      | some x => do
        let pte ← call (.load x.1 x.2)
        if Present pte then do
          panicUnless (pageOf pte ≠ 0) "kfree"
          kfree (pageOf pte)
          call (.store x.1 x.2 0)
        deallocuvmFrom pgdir oldsz fuel (uint (a + PGSIZE))
    else pure ()

def deallocuvm (pgdir oldsz newsz : ℕ) : Sys ℕ :=
  if oldsz ≤ newsz then return oldsz
  else do
    deallocuvmFrom pgdir oldsz 1048577 (PGROUNDUP newsz)
    return newsz

def freeTables (pgdir : ℕ) : List ℕ → Sys Unit
  | [] => pure ()
  | i :: is => do
    let pde ← call (.load pgdir i)
    if Present pde then kfree (pageOf pde)
    freeTables pgdir is

def freevm (pgdir : ℕ) : Sys Unit := do
  panicUnless (pgdir ≠ 0) "freevm: no pgdir"
  let _ ← deallocuvm pgdir KERNBASE 0
  freeTables pgdir (List.range NPDENTRIES)
  kfree pgdir

/-- `struct kmap` -/
structure Kmap where
  virt : ℕ
  phys_start : ℕ
  phys_end : ℕ
  perm : ℕ

def kmap (L : Layout) : List Kmap :=
  [⟨KERNBASE, 0, EXTMEM, PTE_W⟩,
   ⟨KERNLINK, EXTMEM, L.data, 0⟩,
   ⟨KERNBASE + L.data, L.data, PHYSTOP, PTE_W⟩,
   ⟨DEVSPACE, DEVSPACE, 0, PTE_W⟩]

/-- The loop of `setupkvm`. -/
def setupkvmFrom (pgdir : ℕ) : List Kmap → Sys (Option ℕ)
  | [] => return some pgdir
  | k :: ks => do
    let ok ← mappages pgdir k.virt (uintOf ((k.phys_end : ℤ) - k.phys_start)) k.phys_start k.perm
    if ok = true then setupkvmFrom pgdir ks
    else do
      freevm pgdir
      return none

def setupkvm (L : Layout) : Sys (Option ℕ) := do
  match ← call .kalloc with
  | none => return none
  | some pgdir => do
    call (.memset pgdir 0#8)
    panicUnless (PHYSTOP + KERNBASE ≤ DEVSPACE) "PHYSTOP too high"
    setupkvmFrom pgdir (kmap L)

def allocuvmFrom (pgdir oldsz newsz : ℕ) : ℕ → ℕ → Sys Bool
  | 0, _ => .panic "allocuvm: passes"
  | fuel + 1, a =>
    if a < newsz then do
      match ← call .kalloc with
      | none => do
        let _ ← deallocuvm pgdir newsz oldsz
        return false
      | some mem => do
        call (.memset mem 0#8)
        let ok ← mappages pgdir a PGSIZE (mem * PGSIZE) (PTE_W ||| PTE_U)
        if ok = true then allocuvmFrom pgdir oldsz newsz fuel (uint (a + PGSIZE))
        else do
          let _ ← deallocuvm pgdir newsz oldsz
          kfree mem
          return false
    else return true

def allocuvm (pgdir oldsz newsz : ℕ) : Sys ℕ :=
  if KERNBASE ≤ newsz then return 0
  else if newsz < oldsz then return oldsz
  else do
    let ok ← allocuvmFrom pgdir oldsz newsz 1048577 (PGROUNDUP oldsz)
    return if ok = true then newsz else 0

/-- The loop of `copyuvm`. -/
def copyuvmFrom (pgdir d sz : ℕ) : ℕ → ℕ → Sys (Option ℕ)
  | 0, _ => .panic "copyuvm: passes"
  | fuel + 1, i =>
    if i < sz then do
      match ← walkpgdir pgdir i false with
      | none => .panic "copyuvm: pte should exist"
      | some x => do
        let pte ← call (.load x.1 x.2)
        panicUnless (Present pte) "copyuvm: page not present"
        match ← call .kalloc with
        | none => do
          freevm d
          return none
        | some mem => do
          call (.memmove mem (pageOf pte))
          let ok ← mappages d i PGSIZE (mem * PGSIZE) (PTE_FLAGS pte)
          if ok = true then copyuvmFrom pgdir d sz fuel (uint (i + PGSIZE))
          else do
            kfree mem
            freevm d
            return none
    else return some d

def copyuvm (L : Layout) (pgdir sz : ℕ) : Sys (Option ℕ) := do
  match ← setupkvm L with
  | none => return none
  | some d => copyuvmFrom pgdir d sz 1048577 0

end Xv6.Vm
