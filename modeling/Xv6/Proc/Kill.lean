import Xv6.Proc.Step

/-!
# The mark of `kill`

`killed` is cleared in one place, where `wait` frees a slot, and `kill` marks the first slot with a
given pid, whatever the state of that slot. So a slot can be unused and marked: `kill(0)` finds a
slot that was never used or that was freed, a pid can be left in the slot of a `fork` that failed,
and a `fork` can fail after its child was killed. The next process in the slot then starts killed.

`KillWorks` is what is meant: unused slots are unmarked, a child starts unmarked unless a `kill` has
named it, and `kill` returns 0 exactly if a process has the pid, and then marks that process. It
holds along a run exactly if all steps of the run are `Careful`.
-/

namespace Xv6

open Run

/-- A `kill` of `pid` that returns `r` and takes `t` to `t'` is right: it returns 0 exactly if a
process has the pid, and then marks that process and changes no other; otherwise it returns `-1` and
changes nothing. -/
structure Ptable.KillsOne (t : Ptable) (pid : ℤ) (r : Option ℤ) (t' : Ptable) : Prop where
  zero : r = some 0 ↔ ∃ i, (t.proc i).state ≠ .UNUSED ∧ (t.proc i).pid = pid
  marks : r = some 0 → ∃ i, (t.proc i).state ≠ .UNUSED ∧ (t.proc i).pid = pid ∧
    (t'.proc i).killed = true ∧ ∀ j, j ≠ i → t'.proc j = t.proc j
  fails : r ≠ some 0 → r = some (-1) ∧ t' = t

namespace Procs

def kills : ProcEvent × Option ℤ → Option ℤ
  | (.act _ (.kill pid), _) => some pid
  | _ => none

def drops (s : Procs) : ProcEvent × Option ℤ → Option (Fin NPROC)
  | (.act c (.kalloc false), _) | (.act c (.copyuvm false), _) => (s.pc c).child
  | _ => none

def Careful (s : Procs) (e : ProcEvent × Option ℤ) : Prop :=
  (∀ pid ∈ kills e, ∀ i ∈ s.ptable.find (fun p => p.pid = pid),
      (s.ptable.proc i).state ≠ .UNUSED) ∧
    ∀ np ∈ s.drops e, (s.ptable.proc np).killed = false

instance (s : Procs) (e : ProcEvent × Option ℤ) : Decidable (Careful s e) :=
  inferInstanceAs (Decidable ((∀ pid ∈ kills e, ∀ i ∈ s.ptable.find (fun p => p.pid = pid), _) ∧ _))

def NamedSince (np : Fin NPROC) (pid : ℤ) : List ((ProcEvent × Option ℤ) × Procs) → Prop
  | [] => False
  | ((.act _ (.kill pid'), _), _) :: π => pid' = pid ∨ NamedSince np pid π
  | ((.act c .allocproc, none), s) :: π => s.pc c ≠ .allocated np ∧ NamedSince np pid π
  | _ :: π => NamedSince np pid π

def StartsUnmarked : List ((ProcEvent × Option ℤ) × Procs) → Prop
  | [] => True
  | (e, s) :: π => ∀ c np pid, e = (.act c .runnable, some pid) →
    (last boot π).pc c = .ready np → (s.ptable.proc np).killed = true → NamedSince np pid π

def Kills : List ((ProcEvent × Option ℤ) × Procs) → Prop
  | [] => True
  | (e, s) :: π => ∀ c pid r, e = (.act c (.kill pid), r) →
    (last boot π).ptable.KillsOne pid r s.ptable

/-- What is meant, at a point of a run. -/
structure KillWorks (π : List ((ProcEvent × Option ℤ) × Procs)) : Prop where
  unused : ∀ i, ((last boot π).ptable.proc i).state = .UNUSED →
    ((last boot π).ptable.proc i).killed = false
  starts : StartsUnmarked π
  kill : Kills π

end Procs

namespace Ptable

theorem kill_cases (pid : ℤ) (t : Ptable) :
    (∀ i, (t.proc i).pid ≠ pid) ∧ t.kill pid = (-1, t) ∨
      ∃ i, t.find (fun p => p.pid = pid) = some i ∧ (t.proc i).pid = pid ∧
        (t.kill pid).1 = 0 ∧ ((t.kill pid).2.proc i).killed = true ∧
        ∀ j, j ≠ i → (t.kill pid).2.proc j = t.proc j := by
  unfold kill
  cases hfind : t.find (fun p => p.pid = pid) with
  | none =>
    refine .inl ⟨fun i hi => ?_, rfl⟩
    simpa [hi] using find_none hfind i
  | some i =>
    refine .inr ⟨i, rfl, by simpa using find_some hfind, rfl, ?_, fun j hj => ?_⟩
    · dsimp only
      rw [setProc_self]
      split <;> rfl
    · exact setProc_of_ne _ _ hj

theorem kill_killsOne {pid : ℤ} {t : Ptable}
    (h : ∀ i ∈ t.find (fun p => p.pid = pid), (t.proc i).state ≠ .UNUSED) :
    t.KillsOne pid (some (t.kill pid).1) (t.kill pid).2 := by
  rcases t.kill_cases pid with ⟨hnone, heq⟩ | ⟨i, hfind, hpid, hzero, hmark, hother⟩
  · rw [heq]
    have hne : some (-1 : ℤ) ≠ some 0 := by decide
    refine ⟨⟨fun hr => absurd hr hne, ?_⟩, fun hr => absurd hr hne, fun _ => ⟨rfl, rfl⟩⟩
    rintro ⟨i, -, hpid⟩
    exact absurd hpid (hnone i)
  · have hi := h i hfind
    rw [hzero]
    exact ⟨⟨fun _ => ⟨i, hi, hpid⟩, fun _ => rfl⟩, fun _ => ⟨i, hi, hpid, hmark, hother⟩,
      fun hr => absurd rfl hr⟩

end Ptable

namespace Procs

variable {s s' : Procs} {e : ProcEvent × Option ℤ} {π : List ((ProcEvent × Option ℤ) × Procs)}

theorem Quiet.kills_drops (h : Quiet e) : kills e = none ∧ s.drops e = none := by
  obtain ⟨e, r⟩ := e
  cases e with
  | act cur a =>
    cases a with
    | kill pid => exact h.elim
    | kalloc ok => exact h.elim
    | copyuvm ok => exact h.elim
    | _ => exact ⟨rfl, rfl⟩
  | dispatch i => exact ⟨rfl, rfl⟩
  | wakeup chan => exact ⟨rfl, rfl⟩

theorem careful_of_none (hkills : kills e = none) (hdrops : s.drops e = none) : Careful s e := by
  refine ⟨fun pid hpid => ?_, fun np hnp => ?_⟩
  · rw [hkills] at hpid
    cases hpid
  · rw [hdrops] at hnp
    cases hnp

theorem careful_of_unused (hs : Stepped s e s')
    (h : ∀ i, (s'.ptable.proc i).state = .UNUSED → (s'.ptable.proc i).killed = false) :
    Careful s e := by
  cases hs with
  | stir e s' hquiet hinit hnext hslot hkilled =>
    obtain ⟨hkills, hdrops⟩ := hquiet.kills_drops (s := s)
    exact careful_of_none hkills hdrops
  | kill cur pid =>
    refine ⟨fun pid' hpid i hi hunused => ?_, fun np hnp => by cases hnp⟩
    obtain rfl : pid = pid' := Option.some.inj hpid
    rcases s.ptable.kill_cases pid with ⟨hnone, -⟩ | ⟨j, hj, -, -, hmark, -⟩
    · exact hnone i (by simpa using Ptable.find_some hi)
    · obtain rfl : j = i := Option.some.inj (hj.symm.trans hi)
      have hstill : ((s.ptable.kill pid).2.proc j).state = .UNUSED := by
        rcases (s.ptable.kill_woken pid j).state with heq | ⟨hsleep, -⟩
        · exact heq.trans hunused
        · exact absurd (hsleep.symm.trans hunused) (by decide)
      exact absurd (hmark.symm.trans (h j hstill)) (by decide)
  | drop cur np a ha hpc =>
    have hkills : kills (.act cur a, some (-1)) = none := by
      rcases ha with rfl | rfl <;> rfl
    have hdrops : s.drops (.act cur a, some (-1)) = some np := by
      rcases ha with rfl | rfl <;> exact hpc
    refine ⟨fun pid hpid => ?_, fun np' hnp => ?_⟩
    · rw [hkills] at hpid
      cases hpid
    · obtain rfl : np = np' := Option.some.inj (hdrops.symm.trans hnp)
      simpa using h np (by simp)
  | _ => exact careful_of_none rfl rfl

theorem NamedSince.cons {np : Fin NPROC} {pid : ℤ} (h : NamedSince np pid π)
    (hslot : ∀ c, e = (.act c .allocproc, none) → s.pc c ≠ .allocated np) :
    NamedSince np pid ((e, s) :: π) := by
  unfold NamedSince
  split
  · rename_i heq
    cases heq
  · rename_i heq
    cases heq
    exact .inr h
  · rename_i heq
    cases heq
    exact ⟨hslot _ rfl, h⟩
  · rename_i heq
    cases heq
    exact h

/-- The invariant: unused slots are unmarked, and the marked children of the processes in `fork` have
been named. -/
structure Marks (π : List ((ProcEvent × Option ℤ) × Procs)) : Prop where
  unused : ∀ i, ((last boot π).ptable.proc i).state = .UNUSED →
    ((last boot π).ptable.proc i).killed = false
  named : ∀ c np, ((last boot π).pc c).child = some np →
    ((last boot π).ptable.proc np).killed = true →
      NamedSince np ((last boot π).ptable.proc np).pid π

namespace Marks

theorem mono (h : Marks π)
    (hunused : ∀ i, (s'.ptable.proc i).state = .UNUSED → (s'.ptable.proc i).killed = true →
      ((last boot π).ptable.proc i).state = .UNUSED ∧
        ((last boot π).ptable.proc i).killed = true)
    (hchild : ∀ c np, (s'.pc c).child = some np → (s'.ptable.proc np).killed = true →
      ((last boot π).pc c).child = some np ∧ ((last boot π).ptable.proc np).killed = true ∧
        (s'.ptable.proc np).pid = ((last boot π).ptable.proc np).pid)
    (hslot : ∀ c, e ≠ (.act c .allocproc, none)) : Marks ((e, s') :: π) := by
  refine ⟨fun i hi => ?_, fun c np hc hkilled => ?_⟩
  · rw [last_cons] at hi ⊢
    rw [← Bool.not_eq_true]
    intro hkilled
    obtain ⟨hi, hkilled⟩ := hunused i hi hkilled
    exact absurd (hkilled.symm.trans (h.unused i hi)) (by decide)
  · rw [last_cons] at hc hkilled ⊢
    obtain ⟨hc, hkilled, hpid⟩ := hchild c np hc hkilled
    rw [hpid]
    exact (h.named c np hc hkilled).cons fun c' heq => absurd heq (hslot c')

theorem of_kill {c : Fin NPROC} {pid : ℤ} {r : Option ℤ} (h : Marks π)
    (hused : ∀ i ∈ (last boot π).ptable.find (fun p => p.pid = pid),
      ((last boot π).ptable.proc i).state ≠ .UNUSED) :
    Marks (((.act c (.kill pid), r),
      { last boot π with ptable := ((last boot π).ptable.kill pid).2 }) :: π) := by
  have hwoken := (last boot π).ptable.kill_woken pid
  have hkilled : ∀ i, (((last boot π).ptable.kill pid).2.proc i).killed = true →
      ((last boot π).ptable.proc i).killed = true ∨
        ((last boot π).ptable.proc i).pid = pid ∧
          (last boot π).ptable.find (fun p => p.pid = pid) = some i := by
    intro i hi
    rcases (last boot π).ptable.kill_cases pid with ⟨-, heq⟩ | ⟨j, hfind, hpid, -, -, hother⟩
    · rw [heq] at hi
      exact .inl hi
    · by_cases hij : i = j
      · exact .inr (hij ▸ ⟨hpid, hfind⟩)
      · rw [hother i hij] at hi
        exact .inl hi
  refine ⟨fun i hi => ?_, fun c' np hc hnp => ?_⟩
  · have hi' : ((last boot π).ptable.proc i).state = .UNUSED := by
      rcases (hwoken i).state with heq | ⟨-, hr⟩
      · exact heq.symm.trans hi
      · exact absurd (hr.symm.trans hi) (by decide)
    rw [← Bool.not_eq_true]
    intro hmark
    rcases hkilled i hmark with hmark | ⟨-, hfind⟩
    · exact absurd (hmark.symm.trans (h.unused i hi')) (by decide)
    · exact hused i hfind hi'
  · rw [last_cons, (hwoken np).pid]
    rcases hkilled np hnp with hmark | ⟨hpid, -⟩
    · exact .inr (h.named c' np hc hmark)
    · exact .inl hpid.symm

theorem of_take {cur np : Fin NPROC} {p : Proc} {n : ℤ} (h : Marks π)
    (hnp : ((last boot π).ptable.proc np).state = .UNUSED)
    (hp : p.state ≠ .UNUSED ∧ p.killed = ((last boot π).ptable.proc np).killed) :
    Marks (((.act cur .allocproc, none), (last boot π).put
      { (last boot π).ptable.setProc np p with nextpid := n } cur (.allocated np)) :: π) := by
  have hslot : ∀ j, j ≠ np → ((last boot π).ptable.setProc np p).proc j =
      (last boot π).ptable.proc j := fun j hj => Ptable.setProc_of_ne _ _ hj
  refine ⟨fun i hi => ?_, fun c m hc hm => ?_⟩
  · simp only [last_cons, put_ptable] at hi ⊢
    by_cases hinp : i = np
    · rw [hinp, Ptable.setProc_self] at hi
      exact absurd hi hp.1
    · rw [hslot i hinp] at hi ⊢
      exact h.unused i hi
  · simp only [last_cons, put_ptable, put_pc] at hc hm ⊢
    have hnot : m ≠ np := by
      rintro rfl
      rw [Ptable.setProc_self, hp.2, h.unused m hnp] at hm
      cases hm
    have hccur : c ≠ cur := by
      rintro rfl
      rw [if_pos rfl] at hc
      exact hnot (Option.some.inj hc).symm
    rw [if_neg hccur] at hc
    rw [hslot m hnot] at hm ⊢
    refine (h.named c m hc hm).cons fun c' heq => ?_
    obtain rfl : cur = c' := by
      cases heq
      rfl
    rw [put_pc, if_pos rfl]
    rintro heq'
    cases heq'
    exact hnot rfl

theorem step (h : Marks π) (hC : Careful (last boot π) e)
    (hs : Stepped (last boot π) e s') : Marks ((e, s') :: π) := by
  cases hs with
  | stir e s' hquiet hinit hnext hslot hkilled =>
    refine h.mono (fun i hi hmark => ?_) (fun c np hc hmark => ?_) ?_
    · rcases (hslot i).state with heq | ⟨-, hst⟩
      · exact ⟨heq.symm.trans hi, (hkilled i).symm.trans hmark⟩
      · rw [hi] at hst
        exact absurd hst (by decide)
    · rw [Forking.pc_eq_of_stirred hslot hc] at hc
      exact ⟨hc, (hkilled np).symm.trans hmark, (hslot np).pid⟩
    · rintro c rfl
      cases hquiet
  | kill cur pid => exact h.of_kill (hC.1 pid rfl)
  | take cur np hrun hpc hnp => exact h.of_take hnp ⟨by simp, rfl⟩
  | stack cur np hpc =>
    refine h.mono (fun i hi hmark => ⟨hi, hmark⟩) (fun c m hc hmark => ⟨?_, hmark, rfl⟩) (by simp)
    rw [put_pc] at hc
    split at hc
    · rename_i heq
      rw [heq, hpc]
      exact hc
    · exact hc
  | drop cur np a ha hpc =>
    have hdrops : (last boot π).drops (.act cur a, some (-1)) = some np := by
      rcases ha with rfl | rfl <;> exact hpc
    have hnp := hC.2 np hdrops
    refine h.mono (fun i hi hmark => ?_) (fun c m hc hmark => ?_) (by simp)
    · by_cases hinp : i = np
      · rw [put_ptable, Ptable.setState_killed, hinp, hnp] at hmark
        cases hmark
      · rw [put_ptable, Ptable.setState_of_ne _ _ hinp] at hi hmark
        exact ⟨hi, hmark⟩
    · rw [put_pc] at hc
      split at hc
      · cases hc
      · exact ⟨hc, by simpa using hmark, by simp⟩
  | adopt cur np hpc =>
    have hslot : ∀ j, (((last boot π).ptable.setProc np
        { (last boot π).ptable.proc np with parent := some cur }).proc j).state =
          ((last boot π).ptable.proc j).state ∧
        (((last boot π).ptable.setProc np
          { (last boot π).ptable.proc np with parent := some cur }).proc j).killed =
          ((last boot π).ptable.proc j).killed ∧
        (((last boot π).ptable.setProc np
          { (last boot π).ptable.proc np with parent := some cur }).proc j).pid =
          ((last boot π).ptable.proc j).pid :=
      Ptable.rel_setProc (R := fun p q => q.state = p.state ∧ q.killed = p.killed ∧ q.pid = p.pid)
        (fun _ => ⟨rfl, rfl, rfl⟩) ⟨rfl, rfl, rfl⟩
    refine h.mono (fun i hi hmark => ?_) (fun c m hc hmark => ?_) (by simp)
    · exact ⟨(hslot i).1.symm.trans hi, (hslot i).2.1.symm.trans hmark⟩
    · refine ⟨?_, (hslot m).2.1.symm.trans hmark, (hslot m).2.2⟩
      rw [put_pc] at hc
      split at hc
      · rename_i heq
        rw [heq, hpc]
        exact hc
      · exact hc
  | start cur np hpc =>
    refine h.mono (fun i hi hmark => ?_) (fun c m hc hmark => ?_) (by simp)
    · by_cases hinp : i = np
      · simp [hinp] at hi
      · rw [put_ptable, Ptable.setState_of_ne _ _ hinp] at hi hmark
        exact ⟨hi, hmark⟩
    · simp only [put_pc] at hc
      split at hc
      · cases hc
      · split at hc
        · cases hc
        · exact ⟨hc, by simpa using hmark, by simp⟩
  | exit cur t hrun hpc hexit =>
    refine h.mono (fun i hi hmark => ?_) (fun c m hc hmark => ?_) (by simp)
    · have hicur : i ≠ cur := by
        rintro rfl
        exact absurd (hi.symm.trans hexit.zombie) (by decide)
      refine ⟨?_, (hexit.killed i).symm.trans hmark⟩
      rcases (hexit.woken i hicur).state with heq | ⟨-, hr⟩
      · exact heq.symm.trans hi
      · exact absurd (hr.symm.trans hi) (by decide)
    · exact ⟨hc, (hexit.killed m).symm.trans hmark, hexit.pid m⟩
  | reap cur i hrun hpc hpar hz =>
    refine h.mono (fun j hj hmark => ?_) (fun c m hc hmark => ?_) (by simp)
    · have hji : j ≠ i := by
        rintro rfl
        simp at hmark
      simp only [put_ptable, Ptable.setProc_of_ne _ _ hji, Ptable.clearChan_state,
        Ptable.clearChan_killed] at hj hmark
      exact ⟨hj, hmark⟩
    · have hmi : m ≠ i := by
        rintro rfl
        simp at hmark
      rw [put_pc] at hc
      split at hc
      · cases hc
      · refine ⟨hc, ?_, ?_⟩
        · simpa [Ptable.setProc_of_ne _ _ hmi] using hmark
        · simp [Ptable.setProc_of_ne _ _ hmi]

end Marks

theorem KillWorks.of_marks (h : Marks π) (hC : Careful (last boot π) e)
    (hs : Stepped (last boot π) e s') (h' : Marks ((e, s') :: π)) : KillWorks ((e, s') :: π) := by
  refine ⟨h'.unused, ?_, ?_⟩
  · rintro c np pid rfl hpc hmark
    cases hs with
    | stir _ _ hquiet => cases hquiet
    | drop _ _ _ ha => rcases ha with ha | ha <;> cases ha
    | start _ np' hpc' =>
      obtain rfl : np = np' := by
        rw [hpc] at hpc'
        exact Pc.ready.inj hpc'
      exact h.named c np (by rw [hpc]; rfl) (by simpa using hmark)
  · rintro c pid r rfl
    cases hs with
    | stir _ _ hquiet => cases hquiet
    | drop _ _ _ ha => rcases ha with ha | ha <;> cases ha
    | kill => exact Ptable.kill_killsOne (hC.1 pid rfl)

/-- `KillWorks` holds along a run exactly if all its steps are careful. -/
theorem killWorks_iff_careful (h : IsRun step boot π) :
    Along KillWorks π ↔ Meets Careful boot π := by
  constructor
  · intro hworks
    induction π with
    | nil => trivial
    | cons x π ih =>
      exact ⟨careful_of_unused (stepped_of_step h.1) hworks.1.unused, ih h.2 hworks.2⟩
  · intro hmeets
    have hboot : Marks [] := by
      refine ⟨by decide, ?_⟩
      rintro c np ⟨⟩
    have hall := h.along_of_meets (P := fun π => Marks π ∧ KillWorks π)
      ⟨hboot, hboot.unused, trivial, trivial⟩ ?_ hmeets
    · exact hall.mono fun _ hP => hP.2
    · rintro e s π ⟨hmarks, -⟩ hC hstep
      have hs := stepped_of_step hstep
      have hmarks' := hmarks.step hC hs
      exact ⟨hmarks', .of_marks hmarks hC hs hmarks'⟩

theorem killWorks_of_kill_child :
    ∃ π, π.filterMap (fun x => kills x.1) = [2] ∧ IsRun step boot π ∧
      (Along KillWorks π ↔ Meets Careful boot π) ∧ Meets Careful boot π := by
  have heval : (history (tickOut next) boot [] ([.dispatch init] ++ forkEvents init ++
      [.act init (.kill 2)])).map
        (fun π => (π.filterMap (fun x => kills x.1), decide (Meets Careful boot π))) =
      some ([2], true) := by
    decide +kernel
  obtain ⟨π, hrun, heq⟩ := exists_run_tickOut heval
  obtain ⟨hkills, hmeets⟩ := Prod.mk.inj heq
  exact ⟨π, hkills, hrun, killWorks_iff_careful hrun, of_decide_eq_true hmeets⟩

theorem NamedSince.exists_kill {np : Fin NPROC} {pid : ℤ} (h : NamedSince np pid π) :
    pid ∈ π.filterMap fun x => kills x.1 := by
  induction π with
  | nil => exact h.elim
  | cons x π ih =>
    unfold NamedSince at h
    rw [List.mem_filterMap] at ih ⊢
    split at h
    · exact h.elim
    · rename_i heq
      obtain ⟨rfl, rfl⟩ := List.cons.inj heq
      rcases h with rfl | h
      · exact ⟨_, List.mem_cons_self, rfl⟩
      · obtain ⟨x, hx, hkills⟩ := ih h
        exact ⟨x, List.mem_cons_of_mem _ hx, hkills⟩
    · rename_i heq
      obtain ⟨rfl, rfl⟩ := List.cons.inj heq
      obtain ⟨x, hx, hkills⟩ := ih h.2
      exact ⟨x, List.mem_cons_of_mem _ hx, hkills⟩
    · rename_i heq
      obtain ⟨rfl, rfl⟩ := List.cons.inj heq
      obtain ⟨x, hx, hkills⟩ := ih h
      exact ⟨x, List.mem_cons_of_mem _ hx, hkills⟩

/-- Init calls `kill(0)`, which returns 0 and marks an unused slot. Then it forks: the child, which
gets the slot and the pid 2, starts killed. -/
theorem child_starts_killed :
    ∃ π, π.map Prod.fst = [(.act init .runnable, some 2), (.act init (.copyuvm true), none),
        (.act init (.kalloc true), none), (.act init .allocproc, none),
        (.act init (.kill 0), some 0), (.dispatch init, none)] ∧
      IsRun step boot π ∧ ((last boot π).ptable.proc child).pid = 2 ∧
      ((last boot π).ptable.proc child).killed = true ∧ ¬StartsUnmarked π ∧
      ¬Along KillWorks π := by
  have heval : (history (tickOut next) boot [] ([.dispatch init, .act init (.kill 0)] ++
      forkEvents init)).map (fun π => (π.map Prod.fst,
        ((last boot π).ptable.proc child).pid, ((last boot π).ptable.proc child).killed,
        (last boot π.tail).pc init)) =
      some ([(.act init .runnable, some 2), (.act init (.copyuvm true), none),
        (.act init (.kalloc true), none), (.act init .allocproc, none),
        (.act init (.kill 0), some 0), (.dispatch init, none)], 2, true, .ready child) := by
    decide +kernel
  obtain ⟨π, hrun, heq⟩ := exists_run_tickOut heval
  obtain ⟨hevents, heq⟩ := Prod.mk.inj heq
  obtain ⟨hpid, heq⟩ := Prod.mk.inj heq
  obtain ⟨hkilled, hready⟩ := Prod.mk.inj heq
  have hstarts : ¬StartsUnmarked π := by
    obtain ⟨⟨e, s⟩, π', rfl, rfl, htail⟩ := List.map_eq_cons_iff.1 hevents
    intro hstarts
    have hkills := (hstarts init child 2 rfl hready hkilled).exists_kill
    have hzero : π'.filterMap (fun x => kills x.1) = [0] :=
      calc π'.filterMap (fun x => kills x.1)
        _ = (π'.map Prod.fst).filterMap kills := by rw [List.filterMap_map]; rfl
        _ = [0] := by
          rw [htail]
          rfl
    rw [hzero] at hkills
    exact absurd hkills (by decide)
  exact ⟨π, hevents, hrun, hpid, hkilled, hstarts,
    fun hworks => hstarts hworks.here.starts⟩

end Procs

end Xv6
