import Xv6.Param
import Mathlib.Data.List.FinRange
import Mathlib.Logic.Function.Basic
import Mathlib.Data.Int.Notation

/-!
# The process table

The part of `proc.c` that creates, ends, and reaps processes. A process is a slot of `ptable.proc`.
Each function below is one stretch of the source under `ptable.lock`, except `fork`, whose
allocations run without the lock but work on a slot that is `EMBRYO` and that no other code touches.
An allocation (`kalloc`, `copyuvm`) is given by whether it succeeds.

The fields of `struct proc` that no function here reads are left out: the memory image, the trap
frame and kernel context, the open files, the current directory, and the name.
-/

namespace Xv6

/-- `enum procstate`. -/
inductive ProcState
  | UNUSED | EMBRYO | SLEEPING | RUNNABLE | RUNNING | ZOMBIE
  deriving DecidableEq, Repr

/-- A sleep channel: the address of a process, or any other kernel address. -/
inductive Chan
  | proc (i : Fin NPROC)
  | other (a : ℕ)
  deriving DecidableEq

/-- `struct proc`. -/
structure Proc where
  state : ProcState
  pid : ℤ
  /-- Slot of the parent; `none` is the null pointer. -/
  parent : Option (Fin NPROC)
  chan : Option Chan
  killed : Bool
  container_id : ℤ
  /-- `&container_table[i]`, as `i`; `none` is the null pointer. -/
  cont : Option ℤ
  deriving DecidableEq

def Proc.zero : Proc := ⟨.UNUSED, 0, none, none, false, 0, none⟩

def Proc.Live (p : Proc) : Prop := p.state ≠ .UNUSED ∧ p.state ≠ .ZOMBIE

instance (p : Proc) : Decidable p.Live := inferInstanceAs (Decidable (_ ∧ _))

/-- `ptable`, with `nextpid` and `initproc`. -/
structure Ptable where
  proc : Fin NPROC → Proc
  nextpid : ℤ
  initproc : Fin NPROC

namespace Ptable

/-- Replace slot `i`. -/
def setProc (t : Ptable) (i : Fin NPROC) (p : Proc) : Ptable :=
  { t with proc := Function.update t.proc i p }

def find (t : Ptable) (test : Proc → Bool) : Option (Fin NPROC) :=
  (List.finRange NPROC).find? fun i => test (t.proc i)

def succ32 (n : ℤ) : ℤ := (n + 1).bmod 0x100000000

/-- `allocproc`: a slot in state `EMBRYO` with a fresh pid; a failed `kalloc` gives the slot back.
-/
def allocproc (kalloc : Bool) (t : Ptable) : Option (Fin NPROC) × Ptable :=
  match t.find (fun p => p.state = .UNUSED) with
  | none => (none, t)
  | some i =>
    let p := { t.proc i with state := .EMBRYO, pid := t.nextpid, container_id := -1 }
    let t := { t.setProc i p with nextpid := succ32 t.nextpid }
    if kalloc then (some i, t)
    else (none, t.setProc i { p with state := .UNUSED })

def fork (kalloc copyuvm : Bool) (cur : Fin NPROC) (t : Ptable) : ℤ × Ptable :=
  match t.allocproc kalloc with
  | (none, t) => (-1, t)
  | (some i, t) =>
    let np := t.proc i
    if copyuvm then
      (np.pid, t.setProc i { np with parent := some cur, state := .RUNNABLE })
    else (-1, t.setProc i { np with state := .UNUSED })

def wakeup1 (chan : Chan) (t : Ptable) : Ptable :=
  { t with proc := fun i =>
      let p := t.proc i
      if p.state = .SLEEPING ∧ p.chan = some chan then { p with state := .RUNNABLE } else p }

def reparent (cur : Fin NPROC) (t : Ptable) : Ptable :=
  (List.finRange NPROC).foldl (fun t i =>
    if (t.proc i).parent = some cur then
      let t := t.setProc i { t.proc i with parent := some t.initproc }
      if (t.proc i).state = .ZOMBIE then t.wakeup1 (.proc t.initproc) else t
    else t) t

def exit (cur : Fin NPROC) (t : Ptable) : Option Ptable :=
  if cur = t.initproc then none
  else
    let t := match (t.proc cur).parent with
      | some i => t.wakeup1 (.proc i)
      | none => t
    let t := t.reparent cur
    some (t.setProc cur { t.proc cur with state := .ZOMBIE })

def sleep (chan : Chan) (cur : Fin NPROC) (t : Ptable) : Ptable :=
  t.setProc cur { t.proc cur with chan := some chan, state := .SLEEPING }

def wait (cur : Fin NPROC) (t : Ptable) : Option ℤ × Ptable :=
  match t.find (fun p => p.parent = some cur ∧ p.state = .ZOMBIE) with
  | some i =>
    let p := t.proc i
    (some p.pid, t.setProc i { p with pid := 0, parent := none, killed := false, state := .UNUSED })
  | none =>
    if (t.find (fun p => p.parent = some cur)).isNone ∨ (t.proc cur).killed then (some (-1), t)
    else (none, t.sleep (.proc cur) cur)

def kill (pid : ℤ) (t : Ptable) : ℤ × Ptable :=
  match t.find (fun p => p.pid = pid) with
  | none => (-1, t)
  | some i =>
    let p := { t.proc i with killed := true }
    (0, t.setProc i (if p.state = .SLEEPING then { p with state := .RUNNABLE } else p))

def userinit : Ptable :=
  let t : Ptable := ⟨fun _ => Proc.zero, 1, ⟨0, NPROC_pos⟩⟩
  match t.allocproc true with
  | (some i, t) => { t.setProc i { t.proc i with state := .RUNNABLE } with initproc := i }
  | (none, t) => t

def initRunning : Proc := ⟨.RUNNING, 1, none, none, false, -1, none⟩

end Ptable

end Xv6
