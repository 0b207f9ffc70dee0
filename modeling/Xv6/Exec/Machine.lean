import Xv6.Alloc.ReadWrite
import Xv6.Vm.Machine

/-!
# `exec` and `growproc`

`exec.c` and the functions of `vm.c` that it uses to fill an address space, as programs over the
operations of `Xv6.Vm` and a few of the file system. The executable is an array of bytes, which
`readi` reads (`Alloc.arrayRead`). Of the file system the state has what has to be balanced: the
transactions, the references and the lock of the inode. The arguments are the strings of the caller,
which are in pages that `exec` does not write to before it returns.

`uva2ka` uses the result of `walkpgdir` without a check. Where that is a null pointer, it takes the
word at address 0 for a page table entry. What that gives is the parameter `null` of `uva2ka` and its
callers; in `exec` it is `nullWord`, the word that is there in the address space of the caller.
-/

namespace Xv6

def MAXARG : ℕ := 32

namespace Exec

open Vm (PGROUNDUP PGROUNDDOWN Present User pageOf)

/-- What `exec` sets in a process. -/
structure Proc where
  pgdir : ℕ
  sz : ℕ
  eip : ℕ
  esp : ℕ
  name : List Byte

/-- The machine, for one process. -/
structure State where
  mem : Vm.Mem
  proc : Proc
  /-- The transactions of the process: `begin_op` without `end_op`. -/
  trans : ℕ
  /-- The references of the process to the inode of the executable. -/
  refs : ℕ
  /-- It has locked the inode. -/
  locked : Bool

/-- The operations. -/
inductive Op
  | vm (o : Vm.Op)
  | beginOp
  | endOp
  /-- `namei`; `false` for 0. -/
  | namei
  | ilock
  | iunlockput
  /-- `readi` of the bytes from `off` on; `none` for -1. -/
  | readi (off n : ℕ)
  /-- The assignments to `curproc`, and `switchuvm`. -/
  | commit (p : Proc)

abbrev Op.Answer : Op → Type
  | .vm o => o.Answer
  | .namei => Bool
  | .readi _ _ => Option (List Byte)
  | .beginOp | .endOp | .ilock | .iunlockput | .commit _ => Unit

def Op.perform (L : Vm.Layout) (file : Option (List Byte)) :
    (o : Op) → State → Option (o.Answer × State)
  | .vm o, s => (o.perform L s.mem).map fun x => (x.1, { s with mem := x.2 })
  | .beginOp, s => some ((), { s with trans := s.trans + 1 })
  | .endOp, s => if 0 < s.trans then some ((), { s with trans := s.trans - 1 }) else none
  | .namei, s =>
    if 0 < s.trans then
      match file with
      | none => some (false, s)
      | some _ => some (true, { s with refs := s.refs + 1 })
    else none
  | .ilock, s =>
    if 0 < s.refs ∧ s.locked = false then some ((), { s with locked := true }) else none
  | .iunlockput, s =>
    if 0 < s.refs ∧ s.locked = true ∧ 0 < s.trans then
      some ((), { s with refs := s.refs - 1, locked := false })
    else none
  | .readi off n, s =>
    if s.locked = true then some (file.bind fun a => Alloc.arrayRead a off n, s) else none
  | .commit p, s => some ((), { s with proc := p })

abbrev Sys := Task Op Op.Answer

/-- One operation. -/
abbrev call (o : Op) : Sys o.Answer := Task.call o

/-- A program of `Xv6.Vm`. -/
def vm {α : Type} (t : Vm.Sys α) : Sys α := t.map .vm fun _ => id

/-! ## `growproc` -/

def growproc (pgdir sz : ℕ) (n : ℤ) : Vm.Sys (Option ℕ) :=
  if 0 < n then do
    let sz ← Vm.allocuvm pgdir sz (uintOf (sz + n))
    return if sz = 0 then none else some sz
  else if n < 0 then do
    let sz ← Vm.deallocuvm pgdir sz (uintOf (sz + n))
    return if sz = 0 then none else some sz
  else return some sz

/-! ## Filling an address space -/

def loaduvmFrom (pgdir addr offset sz : ℕ) : ℕ → ℕ → Sys Bool
  | 0, _ => .panic "loaduvm: passes"
  | fuel + 1, i =>
    if i < sz then do
      match ← vm (Vm.walkpgdir pgdir (uint (addr + i)) false) with
      | none => .panic "loaduvm: address should exist"
      | some x => do
        let pte ← call (.vm (.load x.1 x.2))
        let n := if sz - i < PGSIZE then sz - i else PGSIZE
        match ← call (.readi (uint (offset + i)) n) with
        | none => return false
        | some bs => do
          call (.vm (.write (pageOf pte) 0 bs))
          if bs.length = n then loaduvmFrom pgdir addr offset sz fuel (uint (i + PGSIZE))
          else return false
    else return true

def loaduvm (pgdir addr offset sz : ℕ) : Sys Bool :=
  if addr % PGSIZE ≠ 0 then .panic "loaduvm: addr must be page aligned"
  else loaduvmFrom pgdir addr offset sz 1048577 0

/-- `pte & ~PTE_U` -/
def clearU (pte : ℕ) : ℕ := pte - pte / 4 % 2 * 4

def clearpteu (pgdir uva : ℕ) : Vm.Sys Unit := do
  match ← Vm.walkpgdir pgdir uva false with
  | none => .panic "clearpteu"
  | some x => do
    let pte ← Vm.call (.load x.1 x.2)
    Vm.call (.store x.1 x.2 (clearU pte))

def nullWord (pgdir : ℕ) : Vm.Sys ℕ := do
  match ← Vm.walkpgdir pgdir 0 false with
  | none => .panic "trap"
  | some x => do
    let pte ← Vm.call (.load x.1 x.2)
    if ¬ Present pte then .panic "trap"
    else do
      let word ← Vm.call (.load (pageOf pte) 0)
      if PHYSTOP ≤ pageOf word * PGSIZE then .panic "trap" else return word

section

variable (null : Vm.Sys ℕ)

def uva2ka (pgdir uva : ℕ) : Vm.Sys (Option ℕ) := do
  let x ← Vm.walkpgdir pgdir uva false
  let pte ← match x with
    | none => null
    | some x => Vm.call (.load x.1 x.2)
  return if ¬ Present pte then none else if ¬ User pte then none else some (pageOf pte)

def copyoutFrom (pgdir : ℕ) : ℕ → ℕ → List Byte → Vm.Sys Bool
  | 0, _, _ => .panic "copyout: passes"
  | fuel + 1, va, buf =>
    if 0 < buf.length then do
      let va0 := PGROUNDDOWN va
      match ← uva2ka null pgdir va0 with
      | none => return false
      | some pa0 => do
        let n := if buf.length < PGSIZE - (va - va0) then buf.length else PGSIZE - (va - va0)
        Vm.call (.write pa0 (va - va0) (buf.take n))
        copyoutFrom pgdir fuel (uint (va0 + PGSIZE)) (buf.drop n)
    else return true

def copyout (pgdir va : ℕ) (p : List Byte) : Vm.Sys Bool :=
  copyoutFrom null pgdir (p.length + 1) va p

end

/-! ## Executables -/

def bytesOf (bs : List Byte) : Bytes := fun j => bs.getD j 0#8

def ELF_MAGIC : ℕ := 1179403647

def ELF_PROG_LOAD : ℕ := 1

/-- What `exec` uses of a `struct elfhdr`. -/
structure Elfhdr where
  magic : ℕ
  entry : ℕ
  phoff : ℕ
  phnum : ℕ

/-- What it uses of a `struct proghdr`. -/
structure Proghdr where
  type : ℕ
  off : ℕ
  vaddr : ℕ
  filesz : ℕ
  memsz : ℕ

/-- `sizeof(struct elfhdr)` -/
def elfhdrSize : ℕ := 52

def proghdrSize : ℕ := 32

def Elfhdr.read (bs : List Byte) : Elfhdr :=
  ⟨(bytesOf bs).word 0, (bytesOf bs).word 6, (bytesOf bs).word 7, (bytesOf bs).word 11 % 65536⟩

def Proghdr.read (bs : List Byte) : Proghdr :=
  ⟨(bytesOf bs).word 0, (bytesOf bs).word 1, (bytesOf bs).word 2, (bytesOf bs).word 4,
    (bytesOf bs).word 5⟩

def readStruct (off n : ℕ) : Sys (Option (List Byte)) := do
  let bs ← call (.readi off n)
  return bs.filter fun bs => decide (bs.length = n)

def load (pgdir : ℕ) : ℕ → ℕ → ℕ → Sys (Option ℕ)
  | 0, _, sz => return some sz
  | n + 1, off, sz => do
    match ← readStruct off proghdrSize with
    | none => return none
    | some bs =>
      let ph := Proghdr.read bs
      if ph.type ≠ ELF_PROG_LOAD then load pgdir n (uint (off + proghdrSize)) sz
      else if ph.memsz < ph.filesz then return none
      else if uint (ph.vaddr + ph.memsz) < ph.vaddr then return none
      else do
        let sz ← vm (Vm.allocuvm pgdir sz (uint (ph.vaddr + ph.memsz)))
        if sz = 0 then return none
        else if ph.vaddr % PGSIZE ≠ 0 then return none
        else do
          let ok ← loaduvm pgdir ph.vaddr ph.off ph.filesz
          if ok = true then load pgdir n (uint (off + proghdrSize)) sz else return none

/-! ## The stack -/

/-- `x & ~3` -/
def align (x : ℕ) : ℕ := x / 4 * 4

def below (sp : ℕ) (str : List Byte) : ℕ := align (uintOf ((sp : ℤ) - (str.length + 1)))

section

variable (null : Vm.Sys ℕ)

def pushArgs (pgdir : ℕ) : List (List Byte) → ℕ → ℕ → List ℕ → Sys (Option (ℕ × List ℕ))
  | [], _, sp, ptrs => return some (sp, ptrs)
  | s :: argv, argc, sp, ptrs =>
    if MAXARG ≤ argc then return none
    else do
      let sp := below sp s
      let ok ← vm (copyout null pgdir sp (s ++ [0#8]))
      if ok = true then pushArgs pgdir argv (argc + 1) sp (ptrs ++ [sp]) else return none

/-- The bytes of a word. -/
def wordBytes (v : ℕ) : List Byte := (List.range 4).map fun j => BitVec.ofNat 8 (v / 256 ^ j)

def ustack (sp : ℕ) (ptrs : List ℕ) : List ℕ :=
  [4294967295, ptrs.length, uintOf ((sp : ℤ) - (ptrs.length + 1) * 4)] ++ ptrs ++ [0]

def buildStack (pgdir sz : ℕ) (argv : List (List Byte)) : Sys (Option ℕ) := do
  match ← pushArgs null pgdir argv 0 sz [] with
  | none => return none
  | some (sp, ptrs) => do
    let sp' := uintOf ((sp : ℤ) - (3 + ptrs.length + 1) * 4)
    let ok ← vm (copyout null pgdir sp' ((ustack sp ptrs).flatMap wordBytes))
    return if ok = true then some sp' else none

end

/-! ## `exec` -/

def progName (path : List Byte) : List Byte :=
  ((path.reverse.takeWhile fun c => c ≠ 47#8).reverse).take 15

def bad (pgdir : Option ℕ) (ip : Bool) : Sys Bool := do
  match pgdir with
  | none => pure ()
  | some d => vm (Vm.freevm d)
  if ip = true then do
    call .iunlockput
    call .endOp
  return false

def execStack (pgdir sz oldpgdir entry : ℕ) (path : List Byte) (argv : List (List Byte)) :
    Sys Bool := do
  let base := PGROUNDUP sz
  let sz ← vm (Vm.allocuvm pgdir base (uint (base + 2 * PGSIZE)))
  if sz = 0 then bad (some pgdir) false
  else do
    vm (clearpteu pgdir (uintOf ((sz : ℤ) - 2 * PGSIZE)))
    match ← buildStack (nullWord oldpgdir) pgdir sz argv with
    | none => bad (some pgdir) false
    | some sp => do
      call (.commit ⟨pgdir, sz, entry, sp, progName path⟩)
      vm (Vm.freevm oldpgdir)
      return true

def exec (L : Vm.Layout) (oldpgdir : ℕ) (path : List Byte) (argv : List (List Byte)) :
    Sys Bool := do
  call .beginOp
  let found ← call .namei
  if found = false then do
    call .endOp
    return false
  else do
    call .ilock
    match ← readStruct 0 elfhdrSize with
    | none => bad none true
    | some bs =>
      let elf := Elfhdr.read bs
      if elf.magic ≠ ELF_MAGIC then bad none true
      else do
        match ← vm (Vm.setupkvm L) with
        | none => bad none true
        | some pgdir => do
          match ← load pgdir elf.phnum elf.phoff 0 with
          | none => bad (some pgdir) true
          | some sz => do
            call .iunlockput
            call .endOp
            execStack pgdir sz oldpgdir elf.entry path argv

end Exec

end Xv6
