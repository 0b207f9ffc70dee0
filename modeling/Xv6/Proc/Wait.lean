import Xv6.Proc.Step

/-!
# No lost wakeup in `wait`

A process that sleeps in `wait` has no zombie child, in every state of every run. It goes to sleep
only after a scan of the table that finds none, on its own address, and everything that could give
it one wakes that address: `exit` wakes the parent of the process that exits, and init when it
inherits a zombie. The address is shared: a `sleep` of `recv` or `sleepcustom` and a wakeup of it
may come at any time. They do no harm, since nothing but `sleep` makes a process sleep.
-/

namespace Xv6

open Run

namespace Procs

def SleepsInWait (s : Procs) (i : Fin NPROC) : Prop :=
  s.pc i = .waiting ∧ (s.ptable.proc i).state = .SLEEPING

def Waits (s : Procs) : Prop :=
  ∀ i, s.SleepsInWait i → (s.ptable.proc i).chan = some (.proc i) ∧
    ∀ j, (s.ptable.proc j).parent = some i → (s.ptable.proc j).state ≠ .ZOMBIE

namespace Waits

variable {s s' : Procs}

theorem mono (h : Waits s) (hsleeps : ∀ i, s'.SleepsInWait i → s.SleepsInWait i ∧
      (s'.ptable.proc i).chan = (s.ptable.proc i).chan)
    (hzombie : ∀ j, (s'.ptable.proc j).state = .ZOMBIE → (s.ptable.proc j).state = .ZOMBIE ∧
      (s'.ptable.proc j).parent = (s.ptable.proc j).parent) : Waits s' := by
  intro i hi
  obtain ⟨hsleeps, hchan⟩ := hsleeps i hi
  obtain ⟨hproc, hnone⟩ := h i hsleeps
  refine ⟨hchan.trans hproc, fun j hpar hz => ?_⟩
  obtain ⟨hz, hpar'⟩ := hzombie j hz
  exact hnone j (hpar' ▸ hpar) hz

theorem of_stirred (h : Waits s) (hslot : ∀ j, Stirred s s' j) : Waits s' := by
  have hzombie : ∀ j, (s'.ptable.proc j).state = .ZOMBIE → (s.ptable.proc j).state = .ZOMBIE := by
    intro j hj
    rcases (hslot j).state with heq | ⟨-, hst⟩
    · exact heq.symm.trans hj
    · rw [hj] at hst
      exact absurd hst (by decide)
  rintro i ⟨hpc, hsleep⟩
  have hnone : (s'.ptable.proc i).chan = some (.proc i) ∧
      ∀ j, (s.ptable.proc j).parent = some i → (s.ptable.proc j).state ≠ .ZOMBIE := by
    rcases (hslot i).waits hpc hsleep with ⟨hpc, hsleep, hchan⟩ | hnew
    · rw [hchan]
      exact h i ⟨hpc, hsleep⟩
    · exact hnew
  refine ⟨hnone.1, fun j hpar hz => ?_⟩
  exact hnone.2 j ((hslot j).parent ▸ hpar) (hzombie j hz)

theorem of_exited {cur : Fin NPROC} {t : Ptable} (h : Waits s) (hforking : s.Forking)
    (hexit : s.ptable.Exited cur t) : Waits { s with ptable := t } := by
  rintro i ⟨hpc, hsleep⟩
  have hicur : i ≠ cur := by
    rintro rfl
    exact absurd (hsleep.symm.trans hexit.zombie) (by decide)
  obtain ⟨hchan, hnone⟩ := h i ⟨hpc, (hexit.woken i hicur).sleeping hsleep⟩
  refine ⟨(hexit.woken i hicur).chan.trans hchan, fun j hpar hz => ?_⟩
  rw [hexit.parent] at hpar
  by_cases hjcur : j = cur
  · -- The process that exits: its parent has been woken.
    subst hjcur
    rw [if_neg (hforking.ne_self j)] at hpar
    exact hexit.wakes_parent i hicur hpar hchan hsleep
  · have hzombie : (s.ptable.proc j).state = .ZOMBIE := by
      rcases (hexit.woken j hjcur).state with heq | ⟨-, hr⟩
      · exact heq.symm.trans hz
      · exact absurd (hr.symm.trans hz) (by decide)
    split at hpar
    · -- An abandoned zombie: init has been woken.
      rename_i habandoned
      cases hpar
      exact hexit.wakes_init ⟨j, habandoned, hzombie⟩ hchan hsleep
    · exact hnone j hpar hzombie

theorem of_put (h : Waits s) (cur np : Fin NPROC) (hcur : s'.pc cur ≠ .waiting)
    (hpc : ∀ c, c ≠ cur → c ≠ np → s'.pc c = s.pc c)
    (hnp : (s'.ptable.proc np).state ≠ .SLEEPING ∧ (s'.ptable.proc np).state ≠ .ZOMBIE)
    (hslot : ∀ j, j ≠ np → (s'.ptable.proc j).state = (s.ptable.proc j).state ∧
      (s'.ptable.proc j).parent = (s.ptable.proc j).parent ∧
      (j ≠ cur → (s'.ptable.proc j).chan = (s.ptable.proc j).chan)) : Waits s' := by
  refine h.mono ?_ fun j hz => ?_
  · rintro i ⟨hwait, hsleep⟩
    have hicur : i ≠ cur := by
      rintro rfl
      exact hcur hwait
    have hinp : i ≠ np := by
      rintro rfl
      exact hnp.1 hsleep
    obtain ⟨hstate, -, hchan⟩ := hslot i hinp
    exact ⟨⟨hpc i hicur hinp ▸ hwait, hstate ▸ hsleep⟩, hchan hicur⟩
  · have hjnp : j ≠ np := by
      rintro rfl
      exact hnp.2 hz
    obtain ⟨hstate, hpar, -⟩ := hslot j hjnp
    exact ⟨hstate ▸ hz, hpar⟩

theorem step {e : ProcEvent × Option ℤ} (h : Waits s) (hforking : s.Forking)
    (hs : Stepped s e s') : Waits s' := by
  cases hs with
  | stir e s' hquiet hinit hnext hslot hkilled => exact h.of_stirred hslot
  | kill cur pid => exact h.of_stirred (kill_stirred s pid)
  | exit cur t hrun hpc hexit => exact h.of_exited hforking hexit
  | take cur np hrun hpc hnp =>
    refine h.of_put cur np (by simp [put_pc]) (fun c hc _ => by simp [put_pc, hc]) (by simp)
      fun j hj => ?_
    simp [Ptable.setProc_of_ne _ _ hj]
  | stack cur np hpc =>
    refine h.mono ?_ fun j hz => ⟨hz, rfl⟩
    rintro i ⟨hwait, hsleep⟩
    rw [put_pc] at hwait
    split at hwait
    · cases hwait
    · exact ⟨⟨hwait, hsleep⟩, rfl⟩
  | drop cur np a ha hpc =>
    refine h.of_put cur np (by simp [put_pc]) (fun c hc _ => by simp [put_pc, hc]) (by simp)
      fun j hj => ?_
    simp [Ptable.setState_of_ne _ _ hj]
  | adopt cur np hpc =>
    have hembryo := hforking.embryo cur np (by rw [hpc]; rfl)
    refine h.of_put cur np (by simp [put_pc]) (fun c hc _ => by simp [put_pc, hc])
      (by simp [hembryo]) fun j hj => ?_
    simp [Ptable.setProc_of_ne _ _ hj]
  | start cur np hpc =>
    refine h.of_put cur np (by simp [put_pc]) (fun c hc hcnp => by simp [put_pc, hc, hcnp])
      (by simp) fun j hj => ?_
    simp [Ptable.setState_of_ne _ _ hj]
  | reap cur i hrun hpc hpar hz =>
    refine h.of_put cur i (by simp [put_pc]) (fun c hc _ => by simp [put_pc, hc]) (by simp)
      fun j hj => ?_
    refine ⟨by simp [Ptable.setProc_of_ne _ _ hj], by simp [Ptable.setProc_of_ne _ _ hj], ?_⟩
    intro hjcur
    simp [Ptable.setProc_of_ne _ _ hj, Ptable.clearChan_of_ne _ hjcur]

end Waits

/-- In no state of a run does a process sleep in `wait` while it has a zombie child. -/
theorem no_zombie_of_sleepsInWait {π : List ((ProcEvent × Option ℤ) × Procs)}
    (h : IsRun step boot π) (i j : Fin NPROC) (hi : (last boot π).SleepsInWait i)
    (hpar : ((last boot π).ptable.proc j).parent = some i) :
    ((last boot π).ptable.proc j).state ≠ .ZOMBIE := by
  have hinv : (last boot π).Forking ∧ (last boot π).Waits := by
    refine h.invariant (I := fun s => s.Forking ∧ s.Waits) ⟨boot_forking, ?_⟩ ?_
    · rintro i ⟨hwait, -⟩
      cases hwait
    · rintro s e s' ⟨hforking, hwaits⟩ hstep
      have hs := stepped_of_step hstep
      exact ⟨hforking.step hs, hwaits.step hforking hs⟩
  exact (hinv.2 i hi).2 j hpar

/-- Init sleeps in `wait`, and its child runs. -/
theorem no_zombie_of_init_waits :
    ∃ π, IsRun step boot π ∧ (last boot π).SleepsInWait init ∧
      ((last boot π).ptable.proc child).parent = some init ∧
      ((last boot π).ptable.proc child).state ≠ .ZOMBIE := by
  have heval : (history (tickOut next) boot [] ([.dispatch init] ++ forkEvents init ++
      [.dispatch child, .act init .wait])).map
        (fun π => ((last boot π).pc init, ((last boot π).ptable.proc init).state,
          ((last boot π).ptable.proc child).parent)) =
      some (.waiting, .SLEEPING, some init) := by
    decide +kernel
  obtain ⟨π, hrun, heq⟩ := exists_run_tickOut heval
  obtain ⟨hwait, heq⟩ := Prod.mk.inj heq
  obtain ⟨hsleep, hpar⟩ := Prod.mk.inj heq
  exact ⟨π, hrun, ⟨hwait, hsleep⟩, hpar,
    no_zombie_of_sleepsInWait hrun init child ⟨hwait, hsleep⟩ hpar⟩

end Procs

end Xv6
