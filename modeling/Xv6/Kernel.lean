import Xv6.Container.Slots
import Xv6.Proc.Spec

/-!
# Processes and containers together

The kernel state is the process table and the container globals. An event is a call by the process
in some slot, run as one atomic step with the value it returns, or a decision of the scheduler. A
`wait` that finds no zombie puts the caller to sleep and returns nothing; the caller's `chan` stays
set until it runs again, when it continues with the `wait`.

`Stepped` is what an event can do, and `stepped_of_step` says that every event does one of these.
-/

namespace Xv6

open Containers Run

variable {N P : ℕ}

/-- The process table and the container globals. -/
structure Kernel (N P : ℕ) where
  ptable : Ptable
  cont : Containers N P

/-- A call of a process. -/
inductive Syscall (P : ℕ)
  | fork (kalloc copyuvm : Bool)
  | exit
  | wait
  | kill (pid : ℤ)
  | container (call : Call P)

/-- An event of a run. -/
inductive Event (P : ℕ)
  /-- The process in slot `cur` makes a call, which returns `r`, or does not return. -/
  | call (cur : Fin NPROC) (c : Syscall P) (r : Option ℤ)
  /-- The scheduler runs the process in slot `i`. -/
  | dispatch (i : Fin NPROC)
  /-- The process in slot `i` gives up the CPU. -/
  | yield (i : Fin NPROC)

namespace Kernel

def boot (N P : ℕ) : Kernel N P := ⟨Ptable.userinit, Containers.boot N P⟩

def Copies (p : Proc) : Call P → Prop
  | .join q _ => q = p
  | .leave q => q = p
  | _ => True

def CanCall (p : Proc) (c : Syscall P) : Prop :=
  p.state = .RUNNING ∧ (p.chan = none ∨ c matches .wait)

def exec (s : Kernel N P) (cur : Fin NPROC) : Syscall P → Option (Option ℤ × Kernel N P)
  | .fork kalloc copyuvm =>
    let (r, t) := s.ptable.fork kalloc copyuvm cur
    some (some r, { s with ptable := t })
  | .exit => (s.ptable.exit cur).map fun t => (none, { s with ptable := t })
  | .wait =>
    -- `p->chan = 0` where `sleep` continues, then another pass of the loop
    let t := s.ptable.setProc cur { s.ptable.proc cur with chan := none }
    let (r, t) := t.wait cur
    some (r, { s with ptable := t })
  | .kill pid =>
    let (r, t) := s.ptable.kill pid
    some (some r, { s with ptable := t })
  | .container call =>
    ((call.prog : Prog (Containers N P) ℤ).exec s.cont).map fun x =>
      (some x.1, { s with cont := x.2 })

def setState (s : Kernel N P) (i : Fin NPROC) (st : ProcState) : Kernel N P :=
  { s with ptable := s.ptable.setProc i { s.ptable.proc i with state := st } }

/-- One event. -/
def step (s : Kernel N P) : Event P → Kernel N P → Prop
  | .call cur c r, s' =>
    CanCall (s.ptable.proc cur) c ∧
      (∀ call, c = .container call → Copies (s.ptable.proc cur) call) ∧
      s.exec cur c = some (r, s')
  | .dispatch i, s' => (s.ptable.proc i).state = .RUNNABLE ∧ s' = s.setState i .RUNNING
  | .yield i, s' => (s.ptable.proc i).state = .RUNNING ∧ s' = s.setState i .RUNNABLE

def SlotStep (p q : Proc) : Prop := p.Same q ∨ ¬ p.Live ∧ (q.Live → q.container_id = -1)

/-- Everything that an event can do. -/
inductive Stepped (s : Kernel N P) : Event P → Kernel N P → Prop
  /-- Neither `exit` nor a container call. -/
  | quiet (e : Event P) (t : Ptable) (hexit : ∀ cur r, e ≠ .call cur .exit r)
    (hcall : ∀ cur call r, e ≠ .call cur (.container call) r)
    (hslot : ∀ i, SlotStep (s.ptable.proc i) (t.proc i)) : Stepped s e { s with ptable := t }
  /-- `exit` ends the caller, and only the caller. -/
  | exit (cur : Fin NPROC) (t : Ptable) (hcur : (s.ptable.proc cur).Live)
    (hother : ∀ i, i ≠ cur → (s.ptable.proc i).Same (t.proc i))
    (hzombie : (t.proc cur).state = .ZOMBIE) :
    Stepped s (.call cur .exit none) { s with ptable := t }
  /-- A container call leaves the process table. -/
  | container (cur : Fin NPROC) (call : Call P) (r : ℤ) (c : Containers N P)
    (hcur : (s.ptable.proc cur).Live) (hcopy : Copies (s.ptable.proc cur) call)
    (hstep : callStep s.cont (call, r) c) :
    Stepped s (.call cur (.container call) (some r)) { s with cont := c }

theorem stepped_of_step {s s' : Kernel N P} {e : Event P} (hs : s.step e s') : Stepped s e s' := by
  cases e with
  | call cur c r =>
    obtain ⟨⟨hrun, -⟩, hcopy, hexec⟩ := hs
    have hcur : (s.ptable.proc cur).Live := by simp [Proc.Live, hrun]
    cases c with
    | fork kalloc copyuvm =>
      obtain ⟨rfl, rfl⟩ := by simpa [exec] using hexec
      refine .quiet _ _ (by simp) (by simp) fun i => ?_
      rcases s.ptable.fork_spec kalloc copyuvm cur i with heq | ⟨hun, hnew⟩
      · rw [heq]
        exact .inl (.refl _)
      · refine .inr ⟨by simp [Proc.Live, hun], fun hlive => ?_⟩
        rcases hnew with hun' | hid
        · exact absurd hun' hlive.1
        · exact hid
    | exit =>
      obtain ⟨t, ht, heq⟩ := Option.map_eq_some_iff.1 hexec
      cases heq
      obtain ⟨hother, hzombie⟩ := Ptable.exit_spec ht
      exact .exit cur t hcur (fun i hi => (hother i hi).same) hzombie
    | wait =>
      obtain ⟨rfl, rfl⟩ := by simpa [exec] using hexec
      refine .quiet _ _ (by simp) (by simp) fun i => ?_
      have htidy : (s.ptable.proc i).Same
          ((s.ptable.setProc cur { s.ptable.proc cur with chan := none }).proc i) :=
        Ptable.rel_setProc .refl ⟨rfl, rfl, Iff.rfl⟩ i
      rcases Ptable.wait_spec cur
        (s.ptable.setProc cur { s.ptable.proc cur with chan := none }) i
        with heq | ⟨hz, hun⟩ | ⟨rfl, hsleep⟩
      · rw [heq]
        exact .inl htidy
      · refine .inr ⟨?_, fun hlive => absurd hun hlive.1⟩
        rw [← htidy.live]
        simp [Proc.Live, hz]
      · rw [hsleep]
        refine .inl (htidy.trans ⟨rfl, rfl, ?_⟩)
        simp [Proc.Live, hrun]
    | kill pid =>
      obtain ⟨rfl, rfl⟩ := by simpa [exec] using hexec
      exact .quiet _ _ (by simp) (by simp) fun i => .inl (s.ptable.kill_woken pid i).same
    | container call =>
      obtain ⟨⟨r', c⟩, hc, heq⟩ := Option.map_eq_some_iff.1 hexec
      cases heq
      exact .container cur call r' c hcur (hcopy call rfl) hc
  | dispatch i =>
    obtain ⟨hst, rfl⟩ := hs
    have hsame : (s.ptable.proc i).Same { s.ptable.proc i with state := .RUNNING } :=
      ⟨rfl, rfl, by simp [Proc.Live, hst]⟩
    exact .quiet _ _ (by simp) (by simp) fun j => .inl (Ptable.rel_setProc .refl hsame j)
  | yield i =>
    obtain ⟨hst, rfl⟩ := hs
    have hsame : (s.ptable.proc i).Same { s.ptable.proc i with state := .RUNNABLE } :=
      ⟨rfl, rfl, by simp [Proc.Live, hst]⟩
    exact .quiet _ _ (by simp) (by simp) fun j => .inl (Ptable.rel_setProc .refl hsame j)

/-- What holds in every state of a run: the invariants of the container globals, and that the
`container_id` of every live process is `-1`. No call ever sets it: `join_container` stores it in a
copy. -/
structure Inv (s : Kernel N P) : Prop where
  cont : s.cont.Inv
  container_id : ∀ i, (s.ptable.proc i).Live → (s.ptable.proc i).container_id = -1

theorem boot_inv (hN : 0 < N) (hP : 0 < P) : (boot N P).Inv :=
  ⟨Containers.boot_inv hN hP, Ptable.userinit_container_id⟩

theorem step_inv (hNP : N ≤ P) {s s' : Kernel N P} {e : Event P} (h : s.Inv) (hs : s.step e s') :
    s'.Inv := by
  cases stepped_of_step hs with
  | quiet e t _ _ hslot =>
    refine ⟨h.cont, fun i hlive => ?_⟩
    rcases hslot i with hsame | ⟨-, hid⟩
    · rw [hsame.container_id]
      exact h.container_id i (hsame.live.1 hlive)
    · exact hid hlive
  | exit cur t hcur hother hzombie =>
    refine ⟨h.cont, fun i hlive => ?_⟩
    by_cases hi : i = cur
    · subst hi
      exact absurd hzombie hlive.2
    · rw [(hother i hi).container_id]
      exact h.container_id i ((hother i hi).live.1 hlive)
  | container cur call r c hcur hcopy hstep => exact ⟨callStep_inv hNP h.cont hstep, h.container_id⟩

theorem run_inv (hN : 0 < N) (hNP : N ≤ P) {π : List (Event P × Kernel N P)}
    (h : IsRun step (boot N P) π) : (last (boot N P) π).Inv :=
  IsRun.invariant (boot_inv hN (by omega)) (fun _ _ _ hi hs => step_inv hNP hi hs) h

theorem container_step {s : Kernel N P} {cur : Fin NPROC} {call : Call P} {r : ℤ}
    {c : Containers N P} (hrun : (s.ptable.proc cur).state = .RUNNING)
    (hchan : (s.ptable.proc cur).chan = none) (hcopy : Copies (s.ptable.proc cur) call)
    (hstep : callStep s.cont (call, r) c) :
    s.step (.call cur (.container call) (some r)) { s with cont := c } := by
  refine ⟨⟨hrun, .inl hchan⟩, fun call' h => ?_, ?_⟩
  · obtain rfl := Syscall.container.inj h
    exact hcopy
  · simp only [exec]
    rw [show (call.prog : Prog (Containers N P) ℤ).exec s.cont = some (r, c) from hstep]
    rfl

/-! ## A first member

The shortest run in which a process becomes a member, at the capacities of `param.h`. -/

/-- The slot of init. -/
def init : Fin NPROC := Ptable.userinit.initproc

def started (N P : ℕ) : Kernel N P := (boot N P).setState init .RUNNING

theorem started_step : (boot N P).step (.dispatch init) (started N P) :=
  ⟨show (Ptable.userinit.proc init).state = .RUNNABLE by decide, rfl⟩

theorem started_init : (started N P).ptable.proc init = Ptable.initRunning :=
  show (Ptable.userinit.setProc init
    { Ptable.userinit.proc init with state := .RUNNING }).proc init = _ by decide

theorem started_running : ((started N P).ptable.proc init).state = .RUNNING ∧
    ((started N P).ptable.proc init).chan = none := by
  rw [started_init]
  exact ⟨rfl, rfl⟩

theorem firstCreate_step {s : Kernel 2 2} (cur : Fin NPROC) (hs : s.cont = Containers.boot 2 2)
    (hrun : (s.ptable.proc cur).state = .RUNNING) (hchan : (s.ptable.proc cur).chan = none) :
    s.step (.call cur (.container (.create (Container.zero 2))) (some 0))
      { s with cont := firstCreate } := by
  refine container_step hrun hchan trivial ?_
  rw [hs]
  exact firstCreate_callStep

theorem firstJoin_step {s : Kernel 2 2} (cur : Fin NPROC) (hs : s.cont = firstCreate)
    (hrun : (s.ptable.proc cur).state = .RUNNING) (hchan : (s.ptable.proc cur).chan = none) :
    s.step (.call cur (.container (.join (s.ptable.proc cur) 0)) (some 0))
      { s with cont := firstJoin (s.ptable.proc cur) } := by
  refine container_step hrun hchan rfl ?_
  rw [hs]
  exact firstJoin_callStep _

end Kernel

end Xv6
