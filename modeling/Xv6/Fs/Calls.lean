import Xv6.Lib.Task
import Xv6.Fs.Inode

/-!
# The system calls on names

`fs.c`, `file.c` and `sysfile.c`, function by function, as programs over the operations of
`Xv6.Fs.Op`. There is one device, so that `dev` is left out; `argstr` and its kind have already
fetched the arguments; `begin_op` and `end_op` order the calls against the log and take no inode
lock.

A program waits at `acquiresleep` only. Everything else that a call does with an inode is done with
the lock held, or under `icache.lock` or `ftable.lock`, and is one operation.
-/

namespace Xv6.Fs

abbrev Sys := Task Op Op.Answer

/-- One operation. -/
abbrev call (o : Op) : Sys o.Answer := Task.call o

/-- `if(!c) panic(why)` -/
def panicUnless (c : Prop) [Decidable c] (why : String) : Sys Unit :=
  if c then pure () else .panic why

/-! ## Inodes -/

def iget (site : Site) (i : ℕ) : Sys Unit := do
  let ok ← call (.iget site i)
  panicUnless (ok = true) "iget: no inodes"

/-- The loop of `ialloc`. -/
def iallocFrom (type : Itype) : List ℕ → Sys ℕ
  | [] => .panic "ialloc: no inodes"
  | i :: is => do
    if ← call (.ialloc i type) then
      iget .other i
      return i
    else
      iallocFrom type is

def ialloc (ninodes : ℕ) (type : Itype) : Sys ℕ := iallocFrom type (List.range' 1 (ninodes - 1))

def ilock (i : ℕ) : Sys Unit := do
  let ref ← call (.ilockRef i)
  panicUnless (1 ≤ ref) "ilock"
  call (.acquiresleep .other i)
  let ip ← call (.load i)
  panicUnless (ip ≠ none) "ilock: no type"

def iunlock (site : Site) (i : ℕ) : Sys Unit := do
  let ok ← call (.holding i)
  panicUnless (ok = true) "iunlock"
  call (.releasesleep site i)

def iputFree (i : ℕ) (valid : Bool) (ip : Inode) : Sys Unit :=
  if valid = true ∧ ip.nlink = 0 then do
    let r ← call (.ref i)
    if r = 1 then call (.free i) else pure ()
  else pure ()

def iput (site : Site) (i : ℕ) : Sys Unit := do
  call (.acquiresleep site i)
  let x ← call (.peek i)
  iputFree i x.1 x.2
  call (.releasesleep .other i)
  call (.drop i)

def iunlockput (site : Site) (i : ℕ) : Sys Unit := do
  iunlock site i
  iput site i

/-! ## Directories -/

def dirlookup (site : Site) (dp : ℕ) (name : Name) : Sys (Option (ℕ × ℕ)) := do
  let d ← call (.read dp)
  panicUnless (d.type = .dir) "dirlookup not DIR"
  match find name d.ents with
  | some (inum, off) =>
    iget site inum
    return some (inum, off)
  | none => return none

def dirlink (dp : ℕ) (name : Name) (inum : ℕ) : Sys Bool := do
  match ← dirlookup (.dirlink name) dp name with
  | some (i, _) =>
    iput .other i
    return false
  | none =>
    let d ← call (.read dp)
    let ok ← call (.writei dp (emptyAt d.ents) inum name)
    panicUnless (ok = true) "dirlink"
    return true

/-! ## Paths -/

def skipelem (path : List Char) : Option (Name × List Char) :=
  match path.dropWhile (· == '/') with
  | [] => none
  | c :: s =>
    some (((c :: s).takeWhile (· != '/')).take DIRSIZ,
      ((c :: s).dropWhile (· != '/')).dropWhile (· == '/'))

def elements : ℕ → List Char → List Name
  | 0, _ => []
  | n + 1, path =>
    match skipelem path with
    | none => []
    | some (name, rest) => name :: elements n rest

/-- The elements of a path. -/
def names (path : List Char) : List Name := elements path.length path

theorem length_of_skipelem {path rest : List Char} {name : Name}
    (h : skipelem path = some (name, rest)) : rest.length < path.length := by
  simp only [skipelem] at h
  split at h
  · cases h
  · rename_i c s hs
    cases h
    have hc : c ≠ '/' := by
      have := List.head_dropWhile_not (· == '/') (w := by rw [hs]; exact List.cons_ne_nil c s)
      simpa [hs] using this
    have hlen : (c :: s).length ≤ path.length := by
      rw [← hs]
      exact (List.dropWhile_sublist _).length_le
    have hrest : ((c :: s).dropWhile (· != '/')).length ≤ s.length := by
      rw [List.dropWhile_cons_of_pos (by simpa using hc)]
      exact (List.dropWhile_sublist _).length_le
    have := (List.dropWhile_sublist (l := (c :: s).dropWhile (· != '/')) (· == '/')).length_le
    simp only [List.length_cons] at hlen
    omega

theorem elements_eq {n m : ℕ} {path : List Char} (hn : path.length ≤ n) (hm : path.length ≤ m) :
    elements n path = elements m path := by
  induction n generalizing m path with
  | zero =>
    obtain rfl : path = [] := List.length_eq_zero_iff.1 (by omega)
    cases m <;> rfl
  | succ n ih =>
    cases m with
    | zero =>
      obtain rfl : path = [] := List.length_eq_zero_iff.1 (by omega)
      rfl
    | succ m =>
      simp only [elements]
      cases hs : skipelem path with
      | none => rfl
      | some x =>
        have := length_of_skipelem hs
        simp only
        rw [ih (m := m) (by omega) (by omega)]

theorem names_eq (path : List Char) :
    names path = match skipelem path with
      | none => []
      | some (name, rest) => name :: names rest := by
  have h : names path = elements (path.length + 1) path := elements_eq le_rfl (Nat.le_succ _)
  rw [h, elements]
  cases hs : skipelem path with
  | none => rfl
  | some x =>
    have := length_of_skipelem hs
    simp only [names]
    rw [elements_eq (n := path.length) (by omega) le_rfl]

/-- The loop of `namex`, from inode `i` on. The path has no further element where `rest` is empty.
-/
def namexFrom (nameiparent : Bool) : ℕ → List Name → Sys (Option (ℕ × Name))
  | i, [] =>
    if nameiparent then do
      iput .other i
      return none
    else
      return some (i, [])
  | i, name :: rest => do
    ilock i
    if (← call (.read i)).type ≠ .dir then
      iunlockput .other i
      return none
    else if nameiparent && rest.isEmpty then
      iunlock .other i
      return some (i, name)
    else
      match ← dirlookup .other i name with
      | none =>
        iunlockput .other i
        return none
      | some (next, _) =>
        iunlockput .other i
        namexFrom nameiparent next rest

def namex (path : List Char) (nameiparent : Bool) : Sys (Option (ℕ × Name)) := do
  if path.head? = some '/' then
    iget .other ROOTINO
    namexFrom nameiparent ROOTINO (names path)
  else
    let i ← call .idupCwd
    namexFrom nameiparent i (names path)

def namei (path : List Char) : Sys (Option ℕ) := do
  return (← namex path false).map Prod.fst

def nameiparent (path : List Char) : Sys (Option (ℕ × Name)) := namex path true

/-! ## System calls -/

def fileclose (f : Fin NFILE) : Sys Unit := do
  match ← call (.fileclose f) with
  | .unreferenced => .panic "fileclose"
  | .more => return
  | .last none => return
  | .last (some i) => iput .other i

def sys_close (fd : Fin NOFILE) : Sys ℤ := do
  match ← call (.takeFd fd) with
  | none => return -1
  | some f =>
    fileclose f
    return 0

def linkBad (i : ℕ) : Sys ℤ := do
  ilock i
  let ip ← call (.read i)
  call (.setNlink i (ip.nlink - 1))
  iunlockput .other i
  return -1

def sys_link (old new : List Char) : Sys ℤ := do
  match ← namei old with
  | none => return -1
  | some i =>
    ilock i
    let ip ← call (.read i)
    if ip.type = .dir then
      iunlockput .other i
      return -1
    else
      call (.setNlink i (ip.nlink + 1))
      iunlock .other i
      match ← nameiparent new with
      | none => linkBad i
      | some (dp, name) =>
        ilock dp
        if ← dirlink dp name i then
          iunlockput .other dp
          iput .other i
          return 0
        else
          iunlockput .other dp
          linkBad i

def unlinkDotdot (dp : ℕ) (type : Itype) : Sys Unit :=
  if type = .dir then do
    let d ← call (.read dp)
    call (.setNlink dp (d.nlink - 1))
  else pure ()

def unlinkAt (dp off i : ℕ) : Sys ℤ := do
  ilock i
  let ip ← call (.read i)
  panicUnless (1 ≤ ip.nlink) "unlink: nlink < 1"
  if ip.type = .dir ∧ isdirempty ip.ents = false then
    iunlockput .other i
    iunlockput .other dp
    return -1
  else
    let ok ← call (.writei dp off 0 [])
    panicUnless (ok = true) "unlink: writei"
    unlinkDotdot dp ip.type
    iunlockput .parent dp
    call (.setNlink i (ip.nlink - 1))
    iunlockput .other i
    return 0

def sys_unlink (path : List Char) : Sys ℤ := do
  match ← nameiparent path with
  | none => return -1
  | some (dp, name) =>
    ilock dp
    if name = dot ∨ name = dotdot then
      iunlockput .other dp
      return -1
    else
      match ← dirlookup .other dp name with
      | none =>
        iunlockput .other dp
        return -1
      | some (i, off) => unlinkAt dp off i

def createDots (dp i : ℕ) (type : Itype) : Sys Unit :=
  if type = .dir then do
    let d ← call (.read dp)
    call (.setNlink dp (d.nlink + 1))
    let ok ← dirlink i dot i
    panicUnless (ok = true) "create dots"
    let ok ← dirlink i dotdot dp
    panicUnless (ok = true) "create dots"
  else pure ()

def createIn (ninodes dp : ℕ) (name : Name) (type : Itype) : Sys ℕ := do
  let i ← ialloc ninodes type
  ilock i
  call (.setNlink i 1)
  createDots dp i type
  let ok ← dirlink dp name i
  panicUnless (ok = true) "create: dirlink"
  iunlockput .parent dp
  return i

def create (ninodes : ℕ) (path : List Char) (type : Itype) : Sys (Option ℕ) := do
  match ← nameiparent path with
  | none => return none
  | some (dp, name) =>
    ilock dp
    match ← dirlookup .other dp name with
    | some (i, _) =>
      iunlockput .other dp
      ilock i
      let ip ← call (.read i)
      if type = .file ∧ ip.type = .file then
        return some i
      else
        iunlockput .other i
        return none
    | none => return some (← createIn ninodes dp name type)

def O_RDONLY : ℕ := 0

def O_CREATE : ℕ := 0x200

def openInode (ninodes : ℕ) (path : List Char) (omode : ℕ) : Sys (Option ℕ) :=
  if omode &&& O_CREATE ≠ 0 then create ninodes path .file
  else do
    match ← namei path with
    | none => return none
    | some i =>
      ilock i
      let ip ← call (.read i)
      if ip.type = .dir ∧ omode ≠ O_RDONLY then
        iunlockput .other i
        return none
      else
        return some i

def sys_open (ninodes : ℕ) (path : List Char) (omode : ℕ) : Sys ℤ := do
  match ← openInode ninodes path omode with
  | none => return -1
  | some i =>
    match ← call .filealloc with
    | none =>
      iunlockput .other i
      return -1
    | some f =>
      match ← call (.fdalloc f) with
      | none =>
        fileclose f
        iunlockput .other i
        return -1
      | some fd =>
        iunlock .other i
        call (.setFile f i)
        return fd

def mknod (ninodes : ℕ) (path : List Char) (type : Itype) : Sys ℤ := do
  match ← create ninodes path type with
  | none => return -1
  | some i =>
    iunlockput .other i
    return 0

def sys_mkdir (ninodes : ℕ) (path : List Char) : Sys ℤ := mknod ninodes path .dir

def sys_mknod (ninodes : ℕ) (path : List Char) : Sys ℤ := mknod ninodes path .dev

def sys_chdir (path : List Char) : Sys ℤ := do
  match ← namei path with
  | none => return -1
  | some i =>
    ilock i
    if (← call (.read i)).type ≠ .dir then
      iunlockput .other i
      return -1
    else
      iunlock .other i
      let old ← call .cwd
      iput .other old
      call (.setCwd i)
      return 0

def fork (np : Pid) : Sys ℤ := do
  if ← call (.fork np) then return np else return -1

def closeAll : List (Fin NOFILE) → Sys Unit
  | [] => return
  | fd :: fds => do
    match ← call (.takeFd fd) with
    | none => closeAll fds
    | some f =>
      fileclose f
      closeAll fds

def exit : Sys ℤ := do
  closeAll (List.finRange NOFILE)
  let i ← call .cwd
  iput .other i
  call .exit
  return 0

/-- The calls. -/
inductive Call
  | open (path : List Char) (omode : ℕ)
  | mkdir (path : List Char)
  | mknod (path : List Char)
  | link (old new : List Char)
  | unlink (path : List Char)
  | chdir (path : List Char)
  | close (fd : Fin NOFILE)
  | fork (np : Pid)
  | exit

/-- The program of a call. -/
def Call.prog (ninodes : ℕ) : Call → Sys ℤ
  | .open path omode => sys_open ninodes path omode
  | .mkdir path => sys_mkdir ninodes path
  | .mknod path => sys_mknod ninodes path
  | .link old new => sys_link old new
  | .unlink path => sys_unlink path
  | .chdir path => sys_chdir path
  | .close fd => sys_close fd
  | .fork np => Fs.fork np
  | .exit => Fs.exit

def machine (ninodes : ℕ) : Machine Disk Pid Op Op.Answer Call ℤ where
  perform := Op.perform ninodes
  prog := Call.prog ninodes
  ready s p := s.used p

/-- A state of the machine. -/
abbrev System := Tasks Disk Pid Op Op.Answer ℤ

/-- A step of the machine. -/
abbrev Event := Tasks.Event Pid Call

end Xv6.Fs
