import Xv6.Fs.Calls
import Mathlib.Data.Multiset.AddSub
import Mathlib.Data.Multiset.Filter

/-!
# What a call holds

The ghost state of a call says what the call holds at a point of its program: the references that it
has to drop, the inodes that it has locked and what is in them, the inode that it is making, and the
links that it has counted but not written, or erased but not yet uncounted. `protocol` says how
every operation moves that state and what a call must hold to perform it. Every program of
`Xv6.Fs.Calls` keeps to it, and holds nothing when it returns; what follows for the shared state is
the subject of the modules after this one.

Two assumptions are parameters, so that the programs are checked once. `sound` says that no inode is
freed while something refers to it. `ordered` says that no `dirlink` finds `"."` or `".."`. Without
them the protocol asks and promises less.
-/

namespace Xv6.Fs

/-- What a call holds. -/
structure Ghost where
  /-- References to inodes. -/
  refs : Multiset ℕ
  /-- References that `iput` has examined and not yet dropped. -/
  drops : Multiset ℕ
  /-- The inodes that it has locked, with their contents once it has read them. -/
  locks : List (ℕ × Option Inode)
  /-- The inode that it has allocated and that has no name yet. -/
  fresh : Option (ℕ × Itype)
  /-- The inode that `iput` has found to be its own and is about to free. -/
  freeing : Option ℕ
  /-- The directory that `iunlockput` has unlocked and is about to lock again, with another inode
  locked. -/
  window : Option ℕ
  /-- Links that are in `nlink` and not in a directory. -/
  debt : Multiset (ℕ × Itype)
  /-- References to files. -/
  files : Multiset (Fin NFILE)
  /-- The file that has no inode yet. -/
  opening : Option (Fin NFILE)
  /-- The reference of the current directory is among `refs`, or gone. -/
  cwdTaken : Bool
  /-- Descriptors that are known to be closed. -/
  closed : List (Fin NOFILE)
  /-- The process has not exited. -/
  running : Bool

namespace Ghost

def idle : Ghost := ⟨0, 0, [], none, none, none, 0, 0, none, false, [], false⟩

def start : Ghost := { idle with running := true }

/-- What a call must have given back when it returns. -/
structure Settled (sound : Prop) (g : Ghost) : Prop where
  refs : g.refs = 0
  drops : g.drops = 0
  locks : g.locks = []
  fresh : g.fresh = none
  freeing : g.freeing = none
  window : g.window = none
  debt : sound → g.debt = 0
  files : g.files = 0
  opening : g.opening = none
  cwdTaken : g.cwdTaken = false

def Locked (g : Ghost) (i : ℕ) : Prop := i ∈ g.locks.map Prod.fst

def known (g : Ghost) (i : ℕ) : Option Inode := (g.locks.lookup i).join

def learn (g : Ghost) (i : ℕ) (x : Option Inode) : Ghost :=
  { g with locks := g.locks.map fun y => if y.1 = i then (i, x) else y }

def unlock (g : Ghost) (i : ℕ) : Ghost := { g with locks := g.locks.filter (·.1 ≠ i) }

def give (g : Ghost) (i : ℕ) : Ghost :=
  { g with
    refs := g.refs.erase i
    debt := if i ∈ g.refs.erase i then g.debt else g.debt.filter (·.1 ≠ i) }

def doom (g : Ghost) (i : ℕ) : Ghost := { g.give i with drops := i ::ₘ g.drops }

def typeOf (g : Ghost) (i : ℕ) : Itype :=
  match g.known i with
  | some c => c.type
  | none => if (i, Itype.file) ∈ g.debt then .file else .dev

def links (g : Ghost) (dp i : ℕ) : Multiset (ℕ × Itype) :=
  if g.typeOf i = .dir then {(i, .dir), (dp, .dir)} else {(i, g.typeOf i)}

def wrote (g : Ghost) (dp off inum : ℕ) (name : Name) : Ghost :=
  match g.known dp with
  | none => g
  | some c =>
    let g' := g.learn dp (some { c with ents := putEnt c.ents off ⟨inum % 65536, name⟩ })
    if inum = 0 then
      match c.ents[off]? with
      | none => g'
      | some e => { g' with debt := g.links dp e.inum + g.debt }
    else if g.fresh.map Prod.fst = some dp then g'
    else { g' with debt := g.debt - g.links dp inum, fresh := none }

def counted (g : Ghost) (i : ℕ) (n : ℤ) : Ghost :=
  match g.known i with
  | none => g
  | some c =>
    { g.learn i (some { c with nlink := short n }) with
      debt := if n = c.nlink + 1 then (i, c.type) ::ₘ g.debt else g.debt.erase (i, c.type) }

def next (g : Ghost) : (o : Op) → o.Answer → Ghost
  | .iget _ i, r => if r then { g with refs := i ::ₘ g.refs } else g
  | .idupCwd, i => { g with refs := i ::ₘ g.refs }
  | .ilockRef _, _ => g
  | .acquiresleep _ i, _ => { g with locks := (i, none) :: g.locks, window := none }
  | .load i, r => g.learn i r
  | .read _, _ => g
  | .holding _, _ => g
  | .releasesleep site i, _ =>
    { g.unlock i with window := if site = .parent then some i else none }
  | .peek i, r =>
    if r.1 then if r.2.nlink = 0 then g.learn i (some r.2) else (g.learn i (some r.2)).doom i
    else g.doom i
  | .ref i, r => if r = 1 then { g with freeing := some i } else g.doom i
  | .free i, _ => { (g.learn i none).doom i with freeing := none }
  | .drop i, _ => { g with drops := g.drops.erase i }
  | .writei dp off inum name, r => if r then g.wrote dp off inum name else g
  | .setNlink i n, _ => g.counted i n
  | .ialloc i type, r => if r then { g with fresh := some (i, type) } else g
  | .cwd, i => { g with refs := i ::ₘ g.refs, cwdTaken := true }
  | .setCwd i, _ => { g.give i with cwdTaken := false }
  | .takeFd fd, r =>
    match r with
    | some f => { g with files := f ::ₘ g.files, closed := fd :: g.closed }
    | none => { g with closed := fd :: g.closed }
  | .filealloc, r =>
    match r with
    | some f => { g with files := f ::ₘ g.files, opening := some f }
    | none => g
  | .fdalloc f, r =>
    match r with
    | some _ => { g with files := g.files.erase f, closed := [] }
    | none => g
  | .setFile _ i, _ => { g.give i with opening := none }
  | .fileclose f, r =>
    match r with
    | .last (some i) =>
      { g with files := g.files.erase f, opening := none, refs := i ::ₘ g.refs }
    | _ => { g with files := g.files.erase f, opening := none }
  | .fork _, _ => g
  | .exit, _ => { g with cwdTaken := false, running := false }

def Orders (g : Ghost) (i : ℕ) : Prop :=
  (g.fresh = none ∧ (g.locks = [] ∨ g.window = some i)) ∨
    ∃ dp c, g.locks = [(dp, some c)] ∧ c.type = .dir ∧
      ((∃ type, g.fresh = some (i, type)) ∧ i ≠ dp ∨ g.fresh = none ∧
        ∃ e ∈ c.ents, e.inum = i ∧ e.inum ≠ 0 ∧ e.name ≠ dot ∧ e.name ≠ dotdot)

/-- What a call has to do at once: lock the directory of an `iunlockput` again, free the inode that
it has found to be its own, drop the reference that it has examined. -/
structure Urgent (g : Ghost) (o : Op) : Prop where
  window : ∀ i, g.window = some i → o = .acquiresleep .parent i
  freeing : ∀ i, g.freeing = some i → o = .free i
  drops : ∀ i ∈ g.drops, ¬ g.Locked i → o = .drop i

def Erases (g : Ghost) (dp off : ℕ) : Prop :=
  ∃ c e x, g.known dp = some c ∧ c.ents[off]? = some e ∧ e.inum ≠ 0 ∧ e.name ≠ dot ∧
    e.name ≠ dotdot ∧ g.known e.inum = some x ∧ e.inum ∈ g.refs ∧ e.inum ≠ dp ∧
    (x.type = .dir → isdirempty x.ents = true)

def Dots (g : Ghost) (dp off inum : ℕ) (name : Name) : Prop :=
  ∃ c, g.known dp = some c ∧ g.fresh = some (dp, .dir) ∧
    ((c.ents = [] ∧ off = 0 ∧ name = dot ∧ inum = dp) ∨
      (c.ents = [⟨dp, dot⟩] ∧ off = 1 ∧ name = dotdot ∧ inum ≠ dp ∧
        ∃ d, g.known inum = some d ∧ d.type = .dir))

def Names (g : Ghost) (dp off inum : ℕ) (name : Name) : Prop :=
  ∃ c, g.known dp = some c ∧ (∀ type, g.fresh ≠ some (dp, type)) ∧ name ≠ dot ∧ name ≠ dotdot ∧
    off = emptyAt c.ents ∧ g.debt = g.links dp inum ∧
    ((∃ x, g.fresh = some (inum, x.type) ∧ g.known inum = some x ∧
        (x.type = .dir → x.ents = [⟨inum, dot⟩, ⟨dp, dotdot⟩])) ∨
      (g.fresh = none ∧ ∃ type ≠ .dir, (inum, type) ∈ g.debt))

variable {g : Ghost} {i : ℕ}

theorem mem_debt_of_give {y : ℕ × Itype} (h : y ∈ (g.give i).debt) : y ∈ g.debt := by
  simp only [give] at h
  split at h
  · exact h
  · exact Multiset.mem_of_mem_filter h

theorem typeOf_of_known {c : Inode} (h : g.known i = some c) : g.typeOf i = c.type := by
  simp only [typeOf, h]

end Ghost

def allows (ninodes : ℕ) (sound ordered : Prop) (g : Ghost) : Op → Prop
  | .iget _ i =>
    i = ROOTINO ∨ (∃ type, g.fresh = some (i, type)) ∨
      ∃ dp c e, g.known dp = some c ∧ c.type = .dir ∧ e ∈ c.ents ∧ e.inum = i ∧ i ≠ 0
  | .idupCwd => g.cwdTaken = false ∧ g.running = true
  | .ilockRef i => i ∈ g.refs
  | .acquiresleep site i => i ∈ g.refs ∧ (site = .parent → g.window = some i) ∧
      (ordered → g.Orders i)
  | .load i => i ∈ g.refs ∧ g.Locked i ∧ g.known i = none
  | .read i => ∃ c, g.known i = some c
  | .holding i => i ∈ g.refs ∧ g.Locked i
  | .releasesleep _ i => g.Locked i ∧ g.freeing = none ∧ (sound → (i, .dir) ∉ g.debt)
  | .peek i => i ∈ g.refs ∧ g.Locked i ∧ g.known i = none ∧ g.freeing = none ∧ g.drops = 0 ∧
      (sound ∨ ordered → g.fresh = none) ∧
      (sound → i ∈ g.refs.erase i ∨ ∀ x ∈ g.debt, x.1 ≠ i)
  | .ref i => i ∈ g.refs ∧ g.freeing = none ∧ g.drops = 0 ∧ (sound ∨ ordered → g.fresh = none) ∧
      (sound → i ∈ g.refs.erase i ∨ ∀ x ∈ g.debt, x.1 ≠ i) ∧
      ∃ c, g.known i = some c ∧ c.nlink = 0
  | .free i => i ∈ g.refs ∧ g.freeing = some i ∧ (sound ∨ ordered → g.fresh = none) ∧
      (sound → i ∈ g.refs.erase i ∨ ∀ x ∈ g.debt, x.1 ≠ i) ∧
      ∃ c, g.known i = some c ∧ c.nlink = 0
  | .drop i => i ∈ g.drops ∧ ¬ g.Locked i
  | .writei dp off inum name => dp ∈ g.refs ∧ (∃ c, g.known dp = some c ∧ c.type = .dir) ∧
      (inum = 0 → g.Erases dp off) ∧
      (inum ≠ 0 → name ≠ dot → name ≠ dotdot →
        (∃ type, g.fresh = some (inum, type)) ∧ inum ≠ dp ∨
          ∃ type ≠ .dir, (inum, type) ∈ g.debt) ∧
      (sound → inum ≠ 0 →
        inum ∈ g.refs ∧ (g.Dots dp off inum name ∨ g.Names dp off inum name))
  | .setNlink i n => i ∈ g.refs ∧ ∃ c, g.known i = some c ∧
      (sound → n = c.nlink + 1 ∧ g.freeing = none ∨ n = c.nlink - 1 ∧ (i, c.type) ∈ g.debt)
  | .ialloc i type => 0 < i ∧ i < ninodes ∧ type ≠ .free ∧ g.fresh = none ∧
      ∃ dp c, g.locks = [(dp, some c)]
  | .cwd => g.cwdTaken = false ∧ g.running = true
  | .setCwd i => g.cwdTaken = true ∧ g.running = true ∧ i ∈ g.refs ∧ ¬ g.Locked i ∧
      (sound → i ∈ g.refs.erase i ∨ ∀ x ∈ g.debt, x.1 ≠ i)
  | .takeFd _ => g.opening = none
  | .filealloc => g.opening = none
  | .fdalloc f => f ∈ g.files ∧ g.opening = some f ∧ g.running = true
  | .setFile f i => g.opening = some f ∧ i ∈ g.refs ∧ ¬ g.Locked i ∧
      (sound → i ∈ g.refs.erase i ∨ ∀ x ∈ g.debt, x.1 ≠ i)
  | .fileclose f => f ∈ g.files ∧ (g.opening = none ∨ g.opening = some f)
  | .fork _ => g.cwdTaken = false ∧ g.running = true ∧ g.opening = none
  | .exit => g.running = true ∧ g.cwdTaken = true ∧ ∀ fd, fd ∈ g.closed

def answers (ninodes : ℕ) (sound ordered : Prop) (g : Ghost) : (o : Op) → o.Answer → Prop
  | .iget site _, _ => ordered → site ≠ .dirlink dot ∧ site ≠ .dirlink dotdot
  | .ilockRef _, r => 1 ≤ r
  | .acquiresleep _ i, _ => ¬ g.Locked i
  | .load i, r =>
      (∀ c, r = some c → c.type ≠ .free ∧ 0 < i ∧ i < ninodes ∧
        ∀ type, (i, type) ∈ g.debt → c.type = type) ∧
      (sound → r ≠ none) ∧
      (sound → ∀ type, g.fresh = some (i, type) → r = some ⟨type, 0, []⟩) ∧
      (sound → (∀ type, g.fresh ≠ some (i, type)) → ∀ c, r = some c → c.type = .dir →
        find dot c.ents ≠ none ∧ find dotdot c.ents ≠ none)
  | .read i, r => g.known i = some r
  | .holding _, r => r = true
  | .ialloc i _, r => r = true → ∀ c, g.known i ≠ some c
  | .fileclose f, r => g.opening = some f → r = .last none
  | _, _ => True

/-- The protocol. -/
def protocol (ninodes : ℕ) (sound ordered : Prop) : Task.Protocol Op Op.Answer Ghost where
  allow g o := allows ninodes sound ordered g o ∧ g.Urgent o
  answer := answers ninodes sound ordered
  next := Ghost.next
  dies why := sound → why ≠ "ilock: no type"

end Xv6.Fs
