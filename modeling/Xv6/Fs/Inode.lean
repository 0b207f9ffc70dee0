import Xv6.Param
import Mathlib.Algebra.BigOperators.Group.Finset.Basic
import Mathlib.Data.Fintype.Basic
import Mathlib.Data.List.FinRange
import Mathlib.Data.Int.Notation
import Mathlib.Logic.Function.Basic

/-!
# Inodes, the inode cache and open files

The state that the system calls on names share: the inodes of the disk, the reference counts and
sleep-locks of the inode cache, the file table, and the descriptors and current directory of every
process. `Op` lists the atomic operations of the calls, and `Op.perform` says what each does.

An inode is kept once. The source keeps a copy in memory that is written through to the disk by
`iupdate`, under the inode's lock; what differs is `valid`, which says that the copy has been read,
and which `iput` tests. The cache is indexed by inode number, since `iget` keeps at most one entry
for an inode: an entry with no references is one that is not cached.

The contents of a directory are its entries; those of a file, and the numbers of a device, are left
out. `gen` counts how often an inode has been allocated, and `entGen` keeps, for an entry, the `gen`
of its inode when the entry was written. Neither is in the source: they say which inode an entry was
created for, and no operation depends on them.
-/

namespace Xv6.Fs

open Function

def ROOTINO : ℕ := 1

/-- Length of a name. -/
def DIRSIZ : ℕ := 14

/-- Block size. -/
def BSIZE : ℕ := 512

def MAXFILE : ℕ := 12 + BSIZE / 4

def MAXDIRENT : ℕ := MAXFILE * BSIZE / 16

/-- A process slot. -/
abbrev Pid := Fin NPROC

abbrev Name := List Char

/-- `"."` -/
def dot : Name := ['.']

/-- `".."` -/
def dotdot : Name := ['.', '.']

/-- `ip->type`: free is 0, and the others are `T_DIR`, `T_FILE` and `T_DEV`. -/
inductive Itype
  | free
  | dir
  | file
  | dev
  deriving DecidableEq

/-- `struct dirent`; an entry with `inum` 0 is empty. -/
structure Dirent where
  inum : ℕ
  name : Name
  deriving DecidableEq

/-- An inode. -/
structure Inode where
  type : Itype
  nlink : ℤ
  ents : List Dirent
  deriving DecidableEq

/-- `struct file`; it has an inode when its type is `FD_INODE`. -/
structure File where
  ref : ℕ
  ip : Option ℕ
  deriving DecidableEq

/-- The shared state. -/
structure Disk where
  inode : ℕ → Inode
  /-- How often an inode has been allocated. -/
  gen : ℕ → ℕ
  /-- The `gen` that the inode of an entry of a directory had when the entry was written. -/
  entGen : ℕ → ℕ → ℕ
  /-- `ip->ref` of the cache entry of an inode. -/
  ref : ℕ → ℕ
  valid : ℕ → Bool
  /-- The process that holds `ip->lock`. -/
  lock : ℕ → Option Pid
  file : Fin NFILE → File
  ofile : Pid → Fin NOFILE → Option (Fin NFILE)
  /-- The inode number of `cwd`, and 0 for none. -/
  cwd : Pid → ℕ
  /-- The slot holds a process. -/
  used : Pid → Bool

/-! ## Directories -/

/-- `namecmp` and the loop of `dirlookup`: the first entry in use that has the name, and its place.
-/
def find (name : Name) : List Dirent → Option (ℕ × ℕ)
  | [] => none
  | e :: es =>
    if e.inum ≠ 0 ∧ e.name = name then some (e.inum, 0)
    else (find name es).map fun x => (x.1, x.2 + 1)

def emptyAt : List Dirent → ℕ
  | [] => 0
  | e :: es => if e.inum = 0 then 0 else emptyAt es + 1

def isdirempty (es : List Dirent) : Bool := (es.drop 2).all fun e => e.inum == 0

def putEnt (es : List Dirent) (off : ℕ) (e : Dirent) : List Dirent :=
  if off < es.length then es.set off e else es ++ [e]

theorem mem_putEnt {es : List Dirent} {off : ℕ} {e e' : Dirent} (h : e' ∈ putEnt es off e) :
    e' = e ∨ e' ∈ es := by
  rw [putEnt] at h
  split at h
  · exact (List.mem_or_eq_of_mem_set h).symm
  · rw [List.mem_append, List.mem_singleton] at h
    exact h.symm

/-! ## Operations -/

/-- Where in the source an operation is, as far as it matters to say so. -/
inductive Site
  /-- In the `dirlink` of a name. -/
  | dirlink (name : Name)
  /-- In the `iunlockput(dp)` of `create` and `sys_unlink` that is made with the other inode locked.
  -/
  | parent
  | other
  deriving DecidableEq

/-- What `fileclose` finds under `ftable.lock`. -/
inductive Closed
  | unreferenced
  | more
  | last (ip : Option ℕ)

/-- The atomic operations. -/
inductive Op
  | iget (site : Site) (i : ℕ)
  /-- `idup(myproc()->cwd)` -/
  | idupCwd
  /-- `ilock` looks at `ip->ref`. -/
  | ilockRef (i : ℕ)
  | acquiresleep (site : Site) (i : ℕ)
  /-- The rest of `ilock`: the inode, or `none` if it has no type. -/
  | load (i : ℕ)
  /-- A read of the fields of a locked inode. -/
  | read (i : ℕ)
  /-- `iunlock` looks at the lock and at `ip->ref`. -/
  | holding (i : ℕ)
  | releasesleep (site : Site) (i : ℕ)
  /-- `iput` looks at `ip->valid` and `ip->nlink`. -/
  | peek (i : ℕ)
  /-- `iput` looks at `ip->ref`. -/
  | ref (i : ℕ)
  /-- `iput` truncates and frees the inode. -/
  | free (i : ℕ)
  /-- `iput`: `ip->ref--` -/
  | drop (i : ℕ)
  /-- `writei` of a directory entry. -/
  | writei (dp off inum : ℕ) (name : Name)
  /-- `ip->nlink = n; iupdate(ip)` -/
  | setNlink (i : ℕ) (n : ℤ)
  /-- One pass of the loop of `ialloc`, up to its `iget`. -/
  | ialloc (i : ℕ) (type : Itype)
  /-- `sys_chdir` and `exit` read `cwd` to drop it. -/
  | cwd
  | setCwd (i : ℕ)
  /-- `argfd`, or the loop of `exit`: the file of a descriptor, which is cleared. -/
  | takeFd (fd : Fin NOFILE)
  | filealloc
  | fdalloc (f : Fin NFILE)
  /-- `f->type = FD_INODE; f->ip = ip` -/
  | setFile (f : Fin NFILE) (i : ℕ)
  | fileclose (f : Fin NFILE)
  /-- `fork` into slot `np`. -/
  | fork (np : Pid)
  /-- The end of `exit`: `cwd = 0`, and the slot holds no process any more. -/
  | exit
  deriving DecidableEq

abbrev Op.Answer : Op → Type
  | .iget _ _ | .holding _ | .ialloc _ _ | .writei _ _ _ _ | .fork _ => Bool
  | .idupCwd | .ilockRef _ | .ref _ | .cwd => ℕ
  | .load _ => Option Inode
  | .read _ => Inode
  | .peek _ => Bool × Inode
  | .takeFd _ | .filealloc => Option (Fin NFILE)
  | .fdalloc _ => Option (Fin NOFILE)
  | .fileclose _ => Closed
  | .acquiresleep _ _ | .releasesleep _ _ | .free _ | .drop _ | .setNlink _ _ | .setCwd _
  | .setFile _ _ | .exit => Unit

def short (n : ℤ) : ℤ := (n + 32768) % 65536 - 32768

namespace Disk

def setInode (s : Disk) (i : ℕ) (x : Inode) : Disk :=
  { s with inode := update s.inode i x }

def setRef (s : Disk) (i n : ℕ) : Disk := { s with ref := update s.ref i n }

def setValid (s : Disk) (i : ℕ) (b : Bool) : Disk :=
  { s with valid := update s.valid i b }

def setLock (s : Disk) (i : ℕ) (p : Option Pid) : Disk :=
  { s with lock := update s.lock i p }

def setFile (s : Disk) (f : Fin NFILE) (x : File) : Disk :=
  { s with file := update s.file f x }

def setFd (s : Disk) (p : Pid) (fd : Fin NOFILE) (x : Option (Fin NFILE)) : Disk :=
  { s with ofile := update s.ofile p (update (s.ofile p) fd x) }

def freeInode (s : Disk) (i : ℕ) : Disk :=
  (s.setInode i ⟨.free, (s.inode i).nlink, []⟩).setValid i false

def writeEnt (s : Disk) (dp off inum : ℕ) (name : Name) : Disk :=
  { s with
    inode := update s.inode dp ⟨(s.inode dp).type, (s.inode dp).nlink,
      putEnt (s.inode dp).ents off ⟨inum % 65536, name⟩⟩
    entGen := update s.entGen dp (update (s.entGen dp) off (s.gen inum)) }

def setNlink (s : Disk) (i : ℕ) (n : ℤ) : Disk :=
  s.setInode i ⟨(s.inode i).type, short n, (s.inode i).ents⟩

def allocInode (s : Disk) (i : ℕ) (type : Itype) : Disk :=
  { s with
    inode := update s.inode i ⟨type, 0, []⟩
    gen := update s.gen i (s.gen i + 1) }

section

variable (s : Disk) {i j dp off inum : ℕ} {name : Name} {type : Itype} {n : ℤ}

@[simp] theorem freeInode_self :
    (s.freeInode i).inode i = ⟨.free, (s.inode i).nlink, []⟩ := update_self ..

theorem freeInode_of_ne (h : j ≠ i) : (s.freeInode i).inode j = s.inode j :=
  update_of_ne h ..

@[simp] theorem writeEnt_self :
    (s.writeEnt dp off inum name).inode dp = ⟨(s.inode dp).type, (s.inode dp).nlink,
      putEnt (s.inode dp).ents off ⟨inum % 65536, name⟩⟩ := update_self ..

theorem writeEnt_of_ne (h : j ≠ dp) : (s.writeEnt dp off inum name).inode j = s.inode j :=
  update_of_ne h ..

@[simp] theorem writeEnt_type :
    ((s.writeEnt dp off inum name).inode j).type = (s.inode j).type := by
  by_cases h : j = dp
  · rw [h, writeEnt_self]
  · rw [s.writeEnt_of_ne h]

@[simp] theorem setNlink_self :
    (s.setNlink i n).inode i = ⟨(s.inode i).type, short n, (s.inode i).ents⟩ :=
  update_self ..

theorem setNlink_of_ne (h : j ≠ i) : (s.setNlink i n).inode j = s.inode j :=
  update_of_ne h ..

@[simp] theorem setNlink_type : ((s.setNlink i n).inode j).type = (s.inode j).type := by
  by_cases h : j = i
  · rw [h, setNlink_self]
  · rw [s.setNlink_of_ne h]

@[simp] theorem setNlink_ents : ((s.setNlink i n).inode j).ents = (s.inode j).ents := by
  by_cases h : j = i
  · rw [h, setNlink_self]
  · rw [s.setNlink_of_ne h]

@[simp] theorem allocInode_self : (s.allocInode i type).inode i = ⟨type, 0, []⟩ :=
  update_self ..

theorem allocInode_of_ne (h : j ≠ i) : (s.allocInode i type).inode j = s.inode j :=
  update_of_ne h ..

end

/-- Inodes in the cache. -/
def cached (s : Disk) (ninodes : ℕ) : ℕ := (List.range ninodes).countP fun i => 0 < s.ref i

def fds (s : Disk) (p : Pid) (f : Fin NFILE) : ℕ :=
  ∑ fd, if s.ofile p fd = some f then 1 else 0

end Disk

def Op.perform (ninodes : ℕ) (p : Pid) : (o : Op) → Disk → Option (o.Answer × Disk)
  | .iget _ i, s =>
    if 0 < s.ref i then some (true, s.setRef i (s.ref i + 1))
    else if s.cached ninodes < NINODE then some (true, (s.setRef i 1).setValid i false)
    else some (false, s)
  | .idupCwd, s => some (s.cwd p, s.setRef (s.cwd p) (s.ref (s.cwd p) + 1))
  | .ilockRef i, s => some (s.ref i, s)
  | .acquiresleep _ i, s =>
    match s.lock i with
    | none => some ((), s.setLock i (some p))
    | some _ => none
  | .load i, s =>
    if s.valid i = true ∨ (s.inode i).type ≠ .free then
      some (some (s.inode i), s.setValid i true)
    else some (none, s)
  | .read i, s => some (s.inode i, s)
  | .holding i, s => some (s.lock i = some p ∧ 0 < s.ref i, s)
  | .releasesleep _ i, s => some ((), s.setLock i none)
  | .peek i, s => some ((s.valid i, s.inode i), s)
  | .ref i, s => some (s.ref i, s)
  | .free i, s => some ((), s.freeInode i)
  | .drop i, s => some ((), s.setRef i (s.ref i - 1))
  | .writei dp off inum name, s =>
    if off ≤ (s.inode dp).ents.length ∧ off < MAXDIRENT then
      some (true, s.writeEnt dp off inum name)
    else some (false, s)
  | .setNlink i n, s => some ((), s.setNlink i n)
  | .ialloc i type, s =>
    if (s.inode i).type = .free then some (true, s.allocInode i type) else some (false, s)
  | .cwd, s => some (s.cwd p, s)
  | .setCwd i, s => some ((), { s with cwd := update s.cwd p i })
  | .takeFd fd, s => some (s.ofile p fd, s.setFd p fd none)
  | .filealloc, s =>
    match (List.finRange NFILE).find? fun f => (s.file f).ref = 0 with
    | some f => some (some f, s.setFile f ⟨1, (s.file f).ip⟩)
    | none => some (none, s)
  | .fdalloc f, s =>
    match (List.finRange NOFILE).find? fun fd => s.ofile p fd = none with
    | some fd => some (some fd, s.setFd p fd (some f))
    | none => some (none, s)
  | .setFile f i, s => some ((), s.setFile f ⟨(s.file f).ref, some i⟩)
  | .fileclose f, s =>
    match (s.file f).ref with
    | 0 => some (.unreferenced, s)
    | 1 => some (.last (s.file f).ip, s.setFile f ⟨0, none⟩)
    | n + 1 => some (.more, s.setFile f ⟨n, (s.file f).ip⟩)
  | .fork np, s =>
    if s.used np = false then
      some (true, { s with
        ofile := update s.ofile np (s.ofile p)
        file := fun f => ⟨(s.file f).ref + s.fds p f, (s.file f).ip⟩
        ref := update s.ref (s.cwd p) (s.ref (s.cwd p) + 1)
        cwd := update s.cwd np (s.cwd p)
        used := update s.used np true })
    else some (false, s)
  | .exit, s =>
    some ((), { s with
      cwd := update s.cwd p 0
      used := update s.used p false })

end Xv6.Fs
