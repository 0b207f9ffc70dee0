import Xv6.Lib.Run
import Xv6.Proc.Spec

/-!
# The process table under interleaving

Any number of processes run at a time, and their calls interleave at the sections under
`ptable.lock`. `fork` is the only call with several of them: `allocproc` takes a slot under the
lock, the kernel stack and the address space are allocated without it, and the child becomes
`RUNNABLE` under the lock again. The stores to the new slot in between are made without the lock,
but no other code touches a slot that is `EMBRYO`. `Pc` says where each process is.

A process may go to `sleep` on any channel from any call but `fork` and `wait`: `recv` sleeps on
the address of the caller, `sleepcustom` on that of any process, and `exit` may sleep while it
closes files, before its section. `wakeup` is also called by interrupt handlers, so that it may come
at any time. `sleep` ends at `sched`, and what follows it in the source is a step of its own,
`resume`, or another pass of the loop of `wait`.
-/

namespace Xv6

open Run

/-- Where a process is. -/
inductive Pc
  /-- In none of the calls below. -/
  | user
  /-- In `fork`, before the `kalloc` of the kernel stack of slot `np`. -/
  | allocated (np : Fin NPROC)
  /-- In `fork`, before `copyuvm`. -/
  | copying (np : Fin NPROC)
  /-- In `fork`, before the child becomes `RUNNABLE`. -/
  | ready (np : Fin NPROC)
  /-- In `sleep` of `wait`. -/
  | waiting
  /-- In any other `sleep`. -/
  | sleeping
  deriving DecidableEq

def Pc.child : Pc → Option (Fin NPROC)
  | allocated np | copying np | ready np => some np
  | _ => none

/-- A step of a process. -/
inductive Act
  /-- `fork`: the section of `allocproc`. -/
  | allocproc
  /-- `fork`: `kalloc` of the kernel stack, and whether it succeeds. -/
  | kalloc (ok : Bool)
  /-- `fork`: `copyuvm`, whether it succeeds, and the stores to the child after it. -/
  | copyuvm (ok : Bool)
  /-- `fork`: the section that makes the child `RUNNABLE`. -/
  | runnable
  /-- The section of `exit`. -/
  | exit
  /-- One pass of the loop of `wait`. -/
  | wait
  | kill (pid : ℤ)
  /-- `sleep`, up to `sched`. -/
  | sleep (chan : Chan)
  /-- The return from `sleep`. -/
  | resume
  | yield
  deriving DecidableEq

/-- A step of a process, of the scheduler, or a `wakeup` by anyone. -/
inductive ProcEvent
  | act (cur : Fin NPROC) (a : Act)
  | dispatch (i : Fin NPROC)
  | wakeup (chan : Chan)
  deriving DecidableEq

namespace Ptable

def setState (t : Ptable) (i : Fin NPROC) (st : ProcState) : Ptable :=
  t.setProc i { t.proc i with state := st }

def clearChan (t : Ptable) (i : Fin NPROC) : Ptable :=
  t.setProc i { t.proc i with chan := none }

def takeSlot (t : Ptable) : Option (Fin NPROC × Ptable) :=
  match t.find (fun p => p.state = .UNUSED) with
  | none => none
  | some i =>
    let p := { t.proc i with state := .EMBRYO, pid := t.nextpid, container_id := -1 }
    some (i, { t.setProc i p with nextpid := succ32 t.nextpid })

theorem allocproc_eq_takeSlot (kalloc : Bool) (t : Ptable) :
    t.allocproc kalloc = match t.takeSlot with
      | none => (none, t)
      | some (i, t') => if kalloc then (some i, t') else (none, t'.setState i .UNUSED) := by
  unfold allocproc takeSlot
  cases t.find fun p => p.state = .UNUSED with
  | none => rfl
  | some i => simp [setState, setProc]

end Ptable

/-- The process table, and where the processes are. -/
structure Procs where
  ptable : Ptable
  pc : Fin NPROC → Pc

namespace Procs

def put (s : Procs) (t : Ptable) (cur : Fin NPROC) (pc : Pc) : Procs :=
  ⟨t, Function.update s.pc cur pc⟩

def exec (s : Procs) (cur : Fin NPROC) : Act → Option (Option ℤ × Procs)
  | .allocproc =>
    match s.pc cur with
    | .user =>
      match s.ptable.takeSlot with
      | none => some (some (-1), s)
      | some (np, t) => some (none, s.put t cur (.allocated np))
    | _ => none
  | .kalloc ok =>
    match s.pc cur with
    | .allocated np =>
      if ok then some (none, s.put s.ptable cur (.copying np))
      else some (some (-1), s.put (s.ptable.setState np .UNUSED) cur .user)
    | _ => none
  | .copyuvm ok =>
    match s.pc cur with
    | .copying np =>
      if ok then
        let t := s.ptable.setProc np { s.ptable.proc np with parent := some cur }
        some (none, s.put t cur (.ready np))
      else some (some (-1), s.put (s.ptable.setState np .UNUSED) cur .user)
    | _ => none
  | .runnable =>
    match s.pc cur with
    | .ready np =>
      -- the child starts outside of all calls
      let s' := s.put (s.ptable.setState np .RUNNABLE) np .user
      some (some (s.ptable.proc np).pid, s'.put s'.ptable cur .user)
    | _ => none
  | .exit =>
    match s.pc cur with
    | .user => (s.ptable.exit cur).map fun t => (none, { s with ptable := t })
    | _ => none
  | .wait =>
    if s.pc cur = .user ∨ s.pc cur = .waiting then
      match (s.ptable.clearChan cur).wait cur with
      | (some r, t) => some (some r, s.put t cur .user)
      | (none, t) => some (none, s.put t cur .waiting)
    else none
  | .kill pid =>
    match s.pc cur with
    | .user =>
      let (r, t) := s.ptable.kill pid
      some (some r, { s with ptable := t })
    | _ => none
  | .sleep chan =>
    match s.pc cur with
    | .user => some (none, s.put (s.ptable.sleep chan cur) cur .sleeping)
    | _ => none
  | .resume =>
    match s.pc cur with
    | .sleeping => some (none, s.put (s.ptable.clearChan cur) cur .user)
    | _ => none
  | .yield => some (none, { s with ptable := s.ptable.setState cur .RUNNABLE })

def next (s : Procs) : ProcEvent → Option (Option ℤ × Procs)
  | .act cur a => if (s.ptable.proc cur).state = .RUNNING then s.exec cur a else none
  | .dispatch i =>
    if (s.ptable.proc i).state = .RUNNABLE then
      some (none, { s with ptable := s.ptable.setState i .RUNNING })
    else none
  | .wakeup chan => some (none, { s with ptable := s.ptable.wakeup1 chan })

def step (s : Procs) (e : ProcEvent × Option ℤ) (s' : Procs) : Prop := s.next e.1 = some (e.2, s')

def boot : Procs := ⟨Ptable.userinit, fun _ => .user⟩

/-- The slot of init. -/
def init : Fin NPROC := ⟨0, NPROC_pos⟩

def child : Fin NPROC := ⟨1, one_lt_NPROC⟩

def grandchild : Fin NPROC := ⟨2, two_lt_NPROC⟩

def forkEvents (cur : Fin NPROC) : List ProcEvent :=
  [.act cur .allocproc, .act cur (.kalloc true), .act cur (.copyuvm true), .act cur .runnable]

end Procs

end Xv6
