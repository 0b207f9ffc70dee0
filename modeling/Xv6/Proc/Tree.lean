import Xv6.Proc.Step

/-!
# The tree of processes

Along every run with fewer than 2^31 forks the pids in use are distinct, every process but init has
a parent that has not exited, and `wait` returns a pid at most once, to the parent of its process:
the process that forked it, or init. A pid names one process throughout the run, since `nextpid`
does not come around.
-/

namespace Xv6

open Run

/-- The pids in use are distinct, and none is the `-1` of a failed call; every process but init has
a parent, which is neither unused nor a zombie. -/
structure Ptable.Tree (t : Ptable) : Prop where
  distinct : ∀ i j, (t.proc i).state ≠ .UNUSED → (t.proc j).state ≠ .UNUSED →
    (t.proc i).pid = (t.proc j).pid → i = j
  ne_error : ∀ i, (t.proc i).state ≠ .UNUSED → (t.proc i).pid ≠ -1
  parent : ∀ i, i ≠ t.initproc → (t.proc i).state.Started ∨ (t.proc i).state = .ZOMBIE →
    ∃ j, (t.proc i).parent = some j ∧ (t.proc j).state ≠ .UNUSED ∧ (t.proc j).state ≠ .ZOMBIE

namespace Procs

def took : ProcEvent × Option ℤ → Bool
  | (.act _ .allocproc, none) => true
  | _ => false

def reaps : ProcEvent × Option ℤ → Option ℤ
  | (.act _ .wait, some r) => if r = -1 then none else some r
  | _ => none

def forks (π : List ((ProcEvent × Option ℤ) × Procs)) : ℕ := π.countP fun x => took x.1

def Forked (π : List ((ProcEvent × Option ℤ) × Procs)) (p r : ℤ) : Prop :=
  ∃ c s, ((.act c .runnable, some r), s) ∈ π ∧ (s.ptable.proc c).pid = p

def Reaped (π : List ((ProcEvent × Option ℤ) × Procs)) (r : ℤ) : Prop :=
  ∃ x ∈ π, reaps x.1 = some r

def ReapsOnce : List ((ProcEvent × Option ℤ) × Procs) → Prop
  | [] => True
  | (e, _) :: π => ∀ cur r, e = (.act cur .wait, some r) → r ≠ -1 →
    ¬Reaped π r ∧ ∃ i p, ((last boot π).ptable.proc i).pid = r ∧
      ((last boot π).ptable.proc i).state = .ZOMBIE ∧
      ((last boot π).ptable.proc i).parent = some cur ∧ Forked π p r ∧
      (cur = (last boot π).ptable.initproc ∨ p = ((last boot π).ptable.proc cur).pid)

/-! ## Pids -/

def pidOf (m : ℕ) : ℤ := (m : ℤ).bmod 0x100000000

theorem succ32_pidOf (m : ℕ) : Ptable.succ32 (pidOf m) = pidOf (m + 1) := by
  unfold Ptable.succ32 pidOf
  rw [Int.bmod_add_bmod]
  rfl

theorem pidOf_inj {m n : ℕ} (hm : m < 0x100000000) (hn : n < 0x100000000)
    (h : pidOf m = pidOf n) : m = n := by
  unfold pidOf at h
  rw [Int.bmod_def, Int.bmod_def] at h
  omega

theorem pidOf_ne_error {m : ℕ} (hm : m < 0xFFFFFFFF) : pidOf m ≠ -1 := by
  unfold pidOf
  rw [Int.bmod_def]
  omega

/-- After `n` forks, where `R` is the pids that `wait` has returned: a pid in use is one of those
given out, in use by one process only, and was not returned. -/
structure Pids (n : ℕ) (R : ℤ → Prop) (t : Ptable) : Prop where
  next : t.nextpid = pidOf (n + 2)
  issued : ∀ i, (t.proc i).state ≠ .UNUSED → ∃ m, m < n + 2 ∧ (t.proc i).pid = pidOf m
  distinct : ∀ i j, (t.proc i).state ≠ .UNUSED → (t.proc j).state ≠ .UNUSED →
    (t.proc i).pid = (t.proc j).pid → i = j
  reaped : ∀ r, R r → ∃ m, m < n + 2 ∧ r = pidOf m
  gone : ∀ r i, R r → (t.proc i).state ≠ .UNUSED → (t.proc i).pid ≠ r

namespace Pids

variable {n : ℕ} {R R' : ℤ → Prop} {t t' : Ptable}

theorem mono (h : Pids n R t) (hR : ∀ r, R' r → R r) (hnext : t'.nextpid = t.nextpid)
    (hslot : ∀ i, (t'.proc i).state ≠ .UNUSED →
      (t.proc i).state ≠ .UNUSED ∧ (t'.proc i).pid = (t.proc i).pid) : Pids n R' t' := by
  refine ⟨hnext.trans h.next, fun i hi => ?_, fun i j hi hj hpid => ?_,
    fun r hr => h.reaped r (hR r hr), fun r i hr hi => ?_⟩
  · rw [(hslot i hi).2]
    exact h.issued i (hslot i hi).1
  · rw [(hslot i hi).2, (hslot j hj).2] at hpid
    exact h.distinct i j (hslot i hi).1 (hslot j hj).1 hpid
  · rw [(hslot i hi).2]
    exact h.gone r i (hR r hr) (hslot i hi).1

theorem take {np : Fin NPROC} {p : Proc} (hn : n + 2 < 0x100000000) (h : Pids n R t)
    (hR : ∀ r, R' r → R r) (hpid : p.pid = t.nextpid) :
    Pids (n + 1) R' { t.setProc np p with nextpid := Ptable.succ32 t.nextpid } := by
  have hfresh : ∀ m, m < n + 2 → pidOf m ≠ pidOf (n + 2) := by
    intro m hm heq
    have := pidOf_inj (by omega) hn heq
    omega
  have hslot : ∀ i, ({ t.setProc np p with nextpid := Ptable.succ32 t.nextpid } : Ptable).proc i =
      if i = np then p else t.proc i := Ptable.setProc_apply t np p
  have hnew : p.pid = pidOf (n + 2) := hpid.trans h.next
  refine ⟨?_, fun i hi => ?_, fun i j hi hj hij => ?_, fun r hr => ?_, fun r i hr hi => ?_⟩
  · show Ptable.succ32 t.nextpid = _
    rw [h.next, succ32_pidOf]
  · rw [hslot] at hi ⊢
    split at hi
    · rename_i heq
      rw [if_pos heq]
      exact ⟨n + 2, by omega, hnew⟩
    · rename_i hne
      rw [if_neg hne]
      obtain ⟨m, hm, heq⟩ := h.issued i hi
      exact ⟨m, by omega, heq⟩
  · rw [hslot] at hi hj hij
    rw [hslot] at hij
    -- The new pid is that of no other slot.
    by_cases hinp : i = np <;> by_cases hjnp : j = np
    · rw [hinp, hjnp]
    · rw [if_pos hinp, if_neg hjnp, hnew] at hij
      rw [if_neg hjnp] at hj
      obtain ⟨m, hm, heq⟩ := h.issued j hj
      exact absurd (heq.symm.trans hij.symm) (hfresh m hm)
    · rw [if_neg hinp, if_pos hjnp, hnew] at hij
      rw [if_neg hinp] at hi
      obtain ⟨m, hm, heq⟩ := h.issued i hi
      exact absurd (heq.symm.trans hij) (hfresh m hm)
    · rw [if_neg hinp] at hi hij
      rw [if_neg hjnp] at hj hij
      exact h.distinct i j hi hj hij
  · obtain ⟨m, hm, heq⟩ := h.reaped r (hR r hr)
    exact ⟨m, by omega, heq⟩
  · rw [hslot] at hi ⊢
    split at hi
    · rename_i heq
      obtain ⟨m, hm, hrm⟩ := h.reaped r (hR r hr)
      rw [if_pos heq, hnew, hrm]
      exact fun heq' => hfresh m hm heq'.symm
    · rename_i hne
      rw [if_neg hne]
      exact h.gone r i (hR r hr) hi

theorem reap {i : Fin NPROC} (h : Pids n R t) (hi : (t.proc i).state ≠ .UNUSED)
    (hR : ∀ r, R' r → R r ∨ r = (t.proc i).pid) (hnext : t'.nextpid = t.nextpid)
    (hfree : (t'.proc i).state = .UNUSED)
    (hslot : ∀ j, j ≠ i → (t'.proc j).state = (t.proc j).state ∧
      (t'.proc j).pid = (t.proc j).pid) : Pids n R' t' := by
  have hne : ∀ j, (t'.proc j).state ≠ .UNUSED → j ≠ i ∧ (t.proc j).state ≠ .UNUSED := by
    intro j hj
    have hji : j ≠ i := by
      rintro rfl
      exact hj hfree
    exact ⟨hji, (hslot j hji).1 ▸ hj⟩
  have hmono : Pids n R t' :=
    h.mono (fun _ => id) hnext fun j hj => ⟨(hne j hj).2, (hslot j (hne j hj).1).2⟩
  refine ⟨hmono.next, hmono.issued, hmono.distinct, fun r hr => ?_, fun r j hr hj => ?_⟩
  · rcases hR r hr with hr | rfl
    · exact h.reaped r hr
    · exact h.issued i hi
  · rcases hR r hr with hr | rfl
    · exact hmono.gone r j hr hj
    · obtain ⟨hji, hj⟩ := hne j hj
      rw [(hslot j hji).2]
      exact fun hpid => hji (h.distinct j i hj hi hpid)

theorem quiet {e : ProcEvent × Option ℤ} (h : Quiet e) : took e = false ∧ reaps e = none := by
  obtain ⟨e, r⟩ := e
  cases e with
  | act cur a =>
    cases a with
    | allocproc =>
      obtain rfl : r = some (-1) := h
      exact ⟨rfl, rfl⟩
    | wait =>
      rcases (h : r = none ∨ r = some (-1)) with rfl | rfl <;> exact ⟨rfl, rfl⟩
    | _ => exact ⟨rfl, rfl⟩
  | dispatch i => exact ⟨rfl, rfl⟩
  | wakeup chan => exact ⟨rfl, rfl⟩

theorem step {s s' : Procs} {e : ProcEvent × Option ℤ} (hn : n + 2 < 0x100000000)
    (h : Pids n R s.ptable) (hforking : s.Forking) (hs : Stepped s e s')
    (hR : ∀ r, R' r → R r ∨ reaps e = some r) :
    Pids (if took e then n + 1 else n) R' s'.ptable := by
  have hsame : reaps e = none → ∀ r, R' r → R r := by
    intro hnone r hr
    rcases hR r hr with hr | hr
    · exact hr
    · rw [hnone] at hr
      cases hr
  -- What a slot is before a quiet step if it is in use after it.
  have hused : ∀ s' : Procs, (∀ j, Stirred s s' j) → ∀ i, (s'.ptable.proc i).state ≠ .UNUSED →
      (s.ptable.proc i).state ≠ .UNUSED ∧ (s'.ptable.proc i).pid = (s.ptable.proc i).pid := by
    refine fun s' hslot i hi => ⟨?_, (hslot i).pid⟩
    rcases (hslot i).state with heq | ⟨hst, -⟩
    · rwa [← heq]
    · rintro heq
      rw [heq] at hst
      exact absurd hst (by decide)
  cases hs with
  | stir e s' hquiet hinit hnext hslot hkilled =>
    rw [(quiet hquiet).1]
    exact h.mono (hsame (quiet hquiet).2) hnext (hused s' hslot)
  | kill cur pid => exact h.mono (hsame rfl) (Ptable.kill_nextpid ..) (hused _ (kill_stirred s pid))
  | take cur np hrun hpc hnp => exact h.take hn (hsame rfl) rfl
  | stack cur np hpc => exact h.mono (hsame rfl) rfl fun i hi => ⟨hi, rfl⟩
  | drop cur np a ha hpc =>
    have hquiet : took (.act cur a, some (-1)) = false ∧ reaps (.act cur a, some (-1)) = none := by
      rcases ha with rfl | rfl <;> exact ⟨rfl, rfl⟩
    rw [hquiet.1]
    refine h.mono (hsame hquiet.2) rfl fun i hi => ⟨?_, Ptable.setState_pid ..⟩
    by_cases hinp : i = np
    · simp [hinp] at hi
    · rwa [put_ptable, Ptable.setState_of_ne _ _ hinp] at hi
  | adopt cur np hpc =>
    refine h.mono (hsame rfl) rfl fun i hi => ?_
    simp only [put_ptable, Ptable.setProc_apply] at hi ⊢
    split at hi
    · rename_i heq
      exact ⟨heq ▸ hi, by simp [heq]⟩
    · rename_i hne
      exact ⟨hi, by simp [hne]⟩
  | start cur np hpc =>
    refine h.mono (hsame rfl) rfl fun i hi => ⟨?_, Ptable.setState_pid ..⟩
    by_cases hinp : i = np
    · rw [hinp, hforking.embryo cur np (by rw [hpc]; rfl)]
      decide
    · rwa [put_ptable, Ptable.setState_of_ne _ _ hinp] at hi
  | exit cur t hrun hpc hexit =>
    refine h.mono (hsame rfl) hexit.nextpid fun i hi => ⟨?_, hexit.pid i⟩
    by_cases hicur : i = cur
    · rw [hicur, hrun]
      decide
    · rcases (hexit.woken i hicur).started with heq | ⟨hst, -⟩
      · rwa [← heq]
      · rintro heq
        rw [heq] at hst
        exact absurd hst (by decide)
  | reap cur i hrun hpc hpar hz =>
    refine h.reap (i := i) (by rw [hz]; decide) (fun r hr => ?_) rfl (by simp) fun j hj => ?_
    · rcases hR r hr with hr | hr
      · exact .inl hr
      · simp only [reaps] at hr
        split at hr
        · cases hr
        · exact .inr (Option.some.inj hr).symm
    · simp [Ptable.setProc_of_ne _ _ hj]

end Pids

/-! ## Parents -/

def Parents (F : ℤ → ℤ → Prop) (t : Ptable) : Prop :=
  ∀ i, i ≠ t.initproc → (t.proc i).state.Started ∨ (t.proc i).state = .ZOMBIE →
    ∃ j p, (t.proc i).parent = some j ∧ (t.proc j).state.Started ∧ F p (t.proc i).pid ∧
      (j = t.initproc ∨ p = (t.proc j).pid)

namespace Parents

variable {F F' : ℤ → ℤ → Prop} {t t' : Ptable}

theorem mono (h : Parents F t) (hF : ∀ p r, F p r → F' p r) (hinit : t'.initproc = t.initproc)
    (hold : ∀ i, (t'.proc i).state.Started ∨ (t'.proc i).state = .ZOMBIE →
      ((t.proc i).state.Started ∨ (t.proc i).state = .ZOMBIE) ∧
        (t'.proc i).parent = (t.proc i).parent ∧ (t'.proc i).pid = (t.proc i).pid)
    (hlive : ∀ i, (t.proc i).state.Started →
      (t'.proc i).state.Started ∧ (t'.proc i).pid = (t.proc i).pid) : Parents F' t' := by
  intro i hi hst
  obtain ⟨hst, hpar, hpid⟩ := hold i hst
  obtain ⟨j, p, hj, hjst, hforked, hjp⟩ := h i (hinit ▸ hi) hst
  refine ⟨j, p, hpar.trans hj, (hlive j hjst).1, ?_, ?_⟩
  · rw [hpid]
    exact hF p _ hforked
  · rw [hinit, (hlive j hjst).2]
    exact hjp

theorem of_slot (h : Parents F t) (np : Fin NPROC) (hF : ∀ p r, F p r → F' p r)
    (hinit : t'.initproc = t.initproc) (hnp : ¬(t.proc np).state.Started)
    (hnp' : ¬(t'.proc np).state.Started ∧ (t'.proc np).state ≠ .ZOMBIE)
    (hslot : ∀ j, j ≠ np → (t'.proc j).state = (t.proc j).state ∧
      (t'.proc j).parent = (t.proc j).parent ∧ (t'.proc j).pid = (t.proc j).pid) :
    Parents F' t' := by
  refine h.mono hF hinit (fun i hi => ?_) fun i hi => ?_
  · have hne : i ≠ np := by
      rintro rfl
      exact hi.elim hnp'.1 hnp'.2
    obtain ⟨hstate, hsame⟩ := hslot i hne
    exact ⟨hstate ▸ hi, hsame⟩
  · have hne : i ≠ np := by
      rintro rfl
      exact hnp hi
    obtain ⟨hstate, -, hpid⟩ := hslot i hne
    exact ⟨hstate ▸ hi, hpid⟩

theorem of_exited {cur : Fin NPROC} (h : Parents F t) (hinit : (t.proc t.initproc).state.Started)
    (hcur : (t.proc cur).state.Started) (hexit : t.Exited cur t') : Parents F t' := by
  have hlive : ∀ j, j ≠ cur → (t.proc j).state.Started → (t'.proc j).state.Started := by
    intro j hj hst
    rcases (hexit.woken j hj).started with heq | ⟨-, hj'⟩
    · rw [heq]
      exact hst
    · exact hj'
  intro i hi hst
  rw [hexit.initproc] at hi
  have hbefore : (t.proc i).state.Started ∨ (t.proc i).state = .ZOMBIE := by
    by_cases hicur : i = cur
    · rw [hicur]
      exact .inl hcur
    · rcases (hexit.woken i hicur).started with heq | ⟨hst, -⟩
      · rwa [← heq]
      · exact .inl hst
  obtain ⟨j, p, hj, hjst, hforked, hjp⟩ := h i hi hbefore
  rw [hexit.parent, hexit.pid, hexit.initproc]
  by_cases hjcur : j = cur
  · rw [if_pos (hjcur ▸ hj)]
    exact ⟨_, p, rfl, hlive _ (Ne.symm hexit.ne_init) hinit, hforked, .inl rfl⟩
  · rw [if_neg (fun heq => hjcur (Option.some.inj (hj.symm.trans heq)))]
    exact ⟨j, p, hj, hlive j hjcur hjst, hforked, by rwa [hexit.pid]⟩

theorem step {s s' : Procs} {e : ProcEvent × Option ℤ} (h : Parents F s.ptable)
    (hforking : s.Forking) (hs : Stepped s e s') (hF : ∀ p r, F p r → F' p r)
    (hfork : ∀ c r, e = (.act c .runnable, some r) → F' (s'.ptable.proc c).pid r) :
    Parents F' s'.ptable := by
  have hquiet : ∀ s' : Procs, s'.ptable.initproc = s.ptable.initproc → (∀ j, Stirred s s' j) →
      Parents F' s'.ptable := by
    intro s' hinit hslot
    refine h.mono hF hinit (fun i hi => ⟨?_, (hslot i).parent, (hslot i).pid⟩)
      fun i hi => ⟨?_, (hslot i).pid⟩
    · rcases (hslot i).state with heq | ⟨hst, -⟩
      · rwa [← heq]
      · exact .inl hst
    · rcases (hslot i).state with heq | ⟨-, hst⟩
      · rwa [heq]
      · exact hst
  cases hs with
  | stir e s' hquiet' hinit hnext hslot hkilled => exact hquiet s' hinit hslot
  | kill cur pid => exact hquiet _ (Ptable.kill_initproc ..) (kill_stirred s pid)
  | take cur np hrun hpc hnp =>
    refine h.of_slot np hF rfl (by rw [hnp]; decide) (by simp [ProcState.Started])
      fun j hj => ?_
    simp [Ptable.setProc_of_ne _ _ hj]
  | stack cur np hpc => exact h.mono hF rfl (fun i hi => ⟨hi, rfl, rfl⟩) fun i hi => ⟨hi, rfl⟩
  | drop cur np a ha hpc =>
    refine h.of_slot np hF rfl (hforking.owner hpc).1 (by simp [ProcState.Started])
      fun j hj => ?_
    simp [Ptable.setState_of_ne _ _ hj]
  | adopt cur np hpc =>
    have hchild : (s.pc cur).child = some np := by
      rw [hpc]
      rfl
    have hembryo := hforking.embryo cur np hchild
    refine h.of_slot np hF rfl (hforking.owner hchild).1
      (by simp [hembryo, ProcState.Started]) fun j hj => ?_
    simp [Ptable.setProc_of_ne _ _ hj]
  | start cur np hpc =>
    have hchild : (s.pc cur).child = some np := by
      rw [hpc]
      rfl
    obtain ⟨hnp, hcur, hne, -⟩ := hforking.owner hchild
    intro i hi hst
    by_cases hinp : i = np
    · -- The new process has its forker as parent.
      subst hinp
      refine ⟨cur, _, ?_, ?_, ?_, .inr rfl⟩
      · simp [hforking.ready cur i hpc]
      · simpa [Ptable.setState_of_ne _ _ hne] using hcur
      · simpa using hfork cur _ rfl
    · simp only [put_ptable, Ptable.setState_of_ne _ _ hinp] at hst ⊢
      obtain ⟨j, p, hj, hjst, hforked, hjp⟩ := h i hi hst
      have hjnp : j ≠ np := by
        rintro rfl
        exact hnp hjst
      refine ⟨j, p, hj, ?_, hF p _ hforked, ?_⟩
      · rwa [Ptable.setState_of_ne _ _ hjnp]
      · rwa [Ptable.setState_of_ne _ _ hjnp]
  | exit cur t hrun hpc hexit =>
    have hpar := h.of_exited hforking.init (.inr (.inr hrun)) hexit
    exact hpar.mono hF rfl (fun i hi => ⟨hi, rfl, rfl⟩) fun i hi => ⟨hi, rfl⟩
  | reap cur i hrun hpc hpar hz =>
    refine h.of_slot i hF rfl (by rw [hz]; decide) (by simp [ProcState.Started])
      fun j hj => ?_
    simp [Ptable.setProc_of_ne _ _ hj]

end Parents

/-! ## The tree along a run -/

/-- The invariant of the run `π`, and with it the tree. -/
structure TreeInv (π : List ((ProcEvent × Option ℤ) × Procs)) : Prop where
  pids : Pids (forks π) (Reaped π) (last boot π).ptable
  parents : Parents (Forked π) (last boot π).ptable

theorem TreeInv.tree {π : List ((ProcEvent × Option ℤ) × Procs)} (h : TreeInv π)
    (hforks : forks π < 0x80000000) : (last boot π).ptable.Tree := by
  refine ⟨h.pids.distinct, fun i hi => ?_, fun i hi hst => ?_⟩
  · obtain ⟨m, hm, heq⟩ := h.pids.issued i hi
    rw [heq]
    exact pidOf_ne_error (by omega)
  · obtain ⟨j, p, hj, hjst, -⟩ := h.parents i hi hst
    refine ⟨j, hj, ?_, ?_⟩ <;>
    · intro heq
      rw [heq] at hjst
      exact absurd hjst (by decide)

theorem TreeInv.reapsOnce {π : List ((ProcEvent × Option ℤ) × Procs)} (h : TreeInv π)
    (hforking : (last boot π).Forking) {e : ProcEvent × Option ℤ} {s : Procs}
    (hs : Stepped (last boot π) e s) : ReapsOnce ((e, s) :: π) := by
  rintro cur r rfl hr
  cases hs with
  | stir _ _ hquiet hinit hnext hslot hkilled =>
    rcases (hquiet : some r = none ∨ some r = some (-1)) with heq | heq
    · cases heq
    · exact absurd (Option.some.inj heq) hr
  | drop _ _ _ ha hpc => rcases ha with ha | ha <;> cases ha
  | reap _ i hrun hpc hpar hz =>
    have hused : ((last boot π).ptable.proc i).state ≠ .UNUSED := by
      rw [hz]
      decide
    have hi : i ≠ (last boot π).ptable.initproc := by
      rintro rfl
      have hinit := hforking.init
      rw [hz] at hinit
      exact absurd hinit (by decide)
    obtain ⟨j, p, hj, -, hforked, hjp⟩ := h.parents i hi (.inr hz)
    obtain rfl : j = cur := Option.some.inj (hj.symm.trans hpar)
    exact ⟨fun hreaped => h.pids.gone _ i hreaped hused rfl, i, p, rfl, hz, hj, hforked, hjp⟩

theorem boot_treeInv : TreeInv [] := by
  -- Init has the one slot in use.
  have hinit : ∀ i, (boot.ptable.proc i).state ≠ .UNUSED →
      i = boot.ptable.initproc ∧ (boot.ptable.proc i).pid = 1 := by
    decide
  refine ⟨⟨rfl, fun i hi => ⟨1, by decide, ?_⟩, fun i j hi hj _ => ?_, ?_, ?_⟩, fun i hi hst => ?_⟩
  · exact (hinit i hi).2
  · exact (hinit i hi).1.trans (hinit j hj).1.symm
  · rintro r ⟨x, hx, -⟩
    cases hx
  · rintro r i ⟨x, hx, -⟩
    cases hx
  · refine absurd (hinit i fun hunused => ?_).1 hi
    rw [last_nil, hunused] at hst
    exact absurd hst (by decide)

theorem TreeInv.step {π : List ((ProcEvent × Option ℤ) × Procs)} {e : ProcEvent × Option ℤ}
    {s : Procs} (h : TreeInv π) (hforks : forks π < 0x80000000)
    (hforking : (last boot π).Forking) (hs : Stepped (last boot π) e s) :
    TreeInv ((e, s) :: π) := by
  have hcount : forks ((e, s) :: π) = if took e then forks π + 1 else forks π := by
    unfold forks
    rw [List.countP_cons]
    split <;> simp_all
  refine ⟨?_, ?_⟩
  · rw [hcount]
    refine h.pids.step (by omega) hforking hs fun r hr => ?_
    obtain ⟨x, hx, hreaps⟩ := hr
    rcases List.mem_cons.1 hx with rfl | hx
    · exact .inr hreaps
    · exact .inl ⟨x, hx, hreaps⟩
  · refine h.parents.step hforking hs ?_ ?_
    · rintro p r ⟨c, u, hmem, hpid⟩
      exact ⟨c, u, List.mem_cons_of_mem _ hmem, hpid⟩
    · rintro c r rfl
      exact ⟨c, s, List.mem_cons_self, rfl⟩

/-- In every run with fewer than 2^31 forks the process table is a tree at every point, and `wait`
returns a pid once, to the parent of its process. -/
theorem tree_along_run {π : List ((ProcEvent × Option ℤ) × Procs)} (h : IsRun step boot π)
    (hforks : forks π < 0x80000000) :
    Along (fun π => (last boot π).ptable.Tree ∧ ReapsOnce π) π := by
  have hmono : ∀ x π, forks (x :: π) < 0x80000000 → forks π < 0x80000000 := by
    intro x π hx
    unfold forks at hx ⊢
    rw [List.countP_cons] at hx
    omega
  have hinv : Along (fun π => forks π < 0x80000000 → TreeInv π ∧ ReapsOnce π) π := by
    refine h.along (fun _ => ⟨boot_treeInv, trivial⟩) fun e s π hπ hP hstep hx => ?_
    have hs := stepped_of_step hstep
    have hbound := hmono _ _ hx
    have hforking := forking_of_isRun hπ
    obtain ⟨htree, -⟩ := hP hbound
    exact ⟨htree.step hbound hforking hs, htree.reapsOnce hforking hs⟩
  refine Along.of_bound (B := fun π => forks π < 0x80000000) hmono ?_ hforks
  exact hinv.mono fun π hP hπ => ⟨(hP hπ).1.tree hπ, (hP hπ).2⟩

/-- Init forks a child, which forks another and exits; init reaps both. -/
theorem tree_along_orphan_run :
    ∃ π, π.filterMap (fun x => reaps x.1) = [3, 2] ∧ IsRun step boot π ∧ forks π < 0x80000000 ∧
      Along (fun π => (last boot π).ptable.Tree ∧ ReapsOnce π) π := by
  have heval : (history (tickOut next) boot [] ([.dispatch init] ++ forkEvents init ++ [.dispatch child] ++
      forkEvents child ++ [.act child .exit, .act init .wait, .dispatch grandchild,
        .act grandchild .exit, .act init .wait])).map
          (fun π => (π.filterMap (fun x => reaps x.1), forks π)) = some ([3, 2], 2) := by
    decide +kernel
  obtain ⟨π, hrun, heq⟩ := exists_run_tickOut heval
  obtain ⟨hreaps, hforks⟩ := Prod.mk.inj heq
  have hbound : forks π < 0x80000000 := by
    rw [hforks]
    decide
  exact ⟨π, hreaps, hrun, hbound, tree_along_run hrun hbound⟩

end Procs

end Xv6
