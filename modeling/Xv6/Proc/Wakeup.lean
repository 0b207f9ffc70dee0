import Xv6.Proc.Step

/-!
# `wakeup1` without the lock

`wakeupcustom`, and `send_multi` through it, call `wakeup1` without `ptable.lock`, against its
comment. Its loop then interleaves with everything else: the test of the state of a slot, the test
of its channel, and the store of `RUNNABLE` are steps of their own here, and the process that runs
the loop may be preempted between them. `Cpus` adds to the processes the CPUs, with the current
process of each, and where each process is in such a loop. All other sections run under the lock,
and are the steps of `Procs`.

A store whose tests are stale can hit a process that runs or has exited. That happens only if the
scheduler has dispatched the process after the test: if it never dispatches a process between test
and store, then states change as they should and no process is current on two CPUs.
-/

namespace Xv6

open Function Run

/-- Where a `wakeup1(chan)` without the lock is: at a slot, before the test of its state, before the
test of its channel, or before the store. -/
inductive Scan
  | state (chan : Chan) (i : Fin NPROC)
  | chan (chan : Chan) (i : Fin NPROC)
  | store (chan : Chan) (i : Fin NPROC)
  deriving DecidableEq

/-- The next iteration. -/
def Scan.next (chan : Chan) (i : Fin NPROC) : Option Scan :=
  if h : i + 1 < NPROC then some (.state chan ⟨i + 1, h⟩) else none

def Scan.tested : Scan → Option (Fin NPROC)
  | .state _ _ => none
  | .chan _ i | .store _ i => some i

def Act.leaves (a : Act) (r : Option ℤ) : Bool :=
  match a with
  | .exit | .sleep _ | .yield => true
  | .wait => r.isNone
  | _ => false

/-- The processes, the current process of each CPU, and the loops without the lock. -/
structure Cpus (κ : Type*) where
  procs : Procs
  cpu : κ → Option (Fin NPROC)
  scan : Fin NPROC → Option Scan

/-- A step of a CPU, or a `wakeup` by anyone. -/
inductive CpuEvent (κ : Type*)
  /-- A step of the current process. -/
  | act (k : κ) (a : Act)
  | dispatch (k : κ) (i : Fin NPROC)
  | wakeup (chan : Chan)
  /-- The current process enters `wakeup1(chan)` from `wakeupcustom`; `chan` is what the search for
  the pid gave. -/
  | wakeupcustom (k : κ) (chan : Chan)
  /-- A step of the current process in that loop. -/
  | scan (k : κ)
  deriving DecidableEq

namespace Cpus

variable {κ : Type*} [DecidableEq κ]

/-- The state of slot `i`. -/
def state (s : Cpus κ) (i : Fin NPROC) : ProcState := (s.procs.ptable.proc i).state

def scanStep (s : Cpus κ) (cur : Fin NPROC) : Scan → Cpus κ
  | .state chan i =>
    let sc := if s.state i = .SLEEPING then some (.chan chan i) else Scan.next chan i
    { s with scan := update s.scan cur sc }
  | .chan chan i =>
    let sc := if (s.procs.ptable.proc i).chan = some chan then some (.store chan i)
      else Scan.next chan i
    { s with scan := update s.scan cur sc }
  | .store chan i =>
    { s with
      procs := { s.procs with ptable := s.procs.ptable.setState i .RUNNABLE }
      scan := update s.scan cur (Scan.next chan i) }

def next (s : Cpus κ) : CpuEvent κ → Option (Option ℤ × Cpus κ)
  | .act k a =>
    match s.cpu k with
    | none => none
    | some cur =>
      if s.scan cur = none ∨ a = .yield then
        match s.procs.exec cur a with
        | none => none
        | some (r, p) =>
          let cpu := if a.leaves r then update s.cpu k none else s.cpu
          some (r, { s with procs := p, cpu := cpu })
      else none
  | .dispatch k i =>
    if s.cpu k = none ∧ s.state i = .RUNNABLE then
      some (none, { s with
        procs := { s.procs with ptable := s.procs.ptable.setState i .RUNNING }
        cpu := update s.cpu k (some i) })
    else none
  | .wakeup chan =>
    some (none, { s with procs := { s.procs with ptable := s.procs.ptable.wakeup1 chan } })
  | .wakeupcustom k chan =>
    match s.cpu k with
    | none => none
    | some cur =>
      if s.procs.pc cur = .user ∧ s.scan cur = none then
        some (none, { s with
          scan := update s.scan cur (some (.state chan ⟨0, NPROC_pos⟩)) })
      else none
  | .scan k =>
    match s.cpu k with
    | none => none
    | some cur =>
      match s.scan cur with
      | none => none
      | some sc => some (none, s.scanStep cur sc)

def step (s : Cpus κ) (e : CpuEvent κ × Option ℤ) (s' : Cpus κ) : Prop := s.next e.1 = some (e.2, s')

def boot : Cpus κ := ⟨Procs.boot, fun _ => none, fun _ => none⟩

def Single (s : Cpus κ) : Prop := ∀ k k' i, s.cpu k = some i → s.cpu k' = some i → k = k'

/-- A step changes the states as it should: a process leaves `ZOMBIE` by `wait` and `UNUSED` by
`allocproc` only, and a process that runs or has exited becomes `RUNNABLE` only by its own
`yield`. -/
structure Orderly (s : Cpus κ) (e : CpuEvent κ) (s' : Cpus κ) : Prop where
  zombie : ∀ i, s.state i = .ZOMBIE → s'.state i ≠ .ZOMBIE → ∃ k, e = .act k .wait
  unused : ∀ i, s.state i = .UNUSED → s'.state i ≠ .UNUSED → ∃ k, e = .act k .allocproc
  runnable : ∀ i, s.state i = .ZOMBIE ∨ s.state i = .RUNNING → s'.state i = .RUNNABLE →
    ∃ k, e = .act k .yield ∧ s.cpu k = some i

def WellScheduled (s₀ : Cpus κ) : List ((CpuEvent κ × Option ℤ) × Cpus κ) → Prop
  | [] => s₀.Single
  | (e, s) :: π => s.Single ∧ Orderly (last s₀ π) e.1 s

def dispatched : CpuEvent κ × Option ℤ → Option (Fin NPROC)
  | (.dispatch _ i, _) => some i
  | _ => none

/-- No scheduler dispatches a process that a loop without the lock has tested and not yet stored to.
-/
def Guarded (s : Cpus κ) (e : CpuEvent κ × Option ℤ) : Prop :=
  ∀ i ∈ dispatched e, ∀ j, (s.scan j).bind Scan.tested ≠ some i

instance (s : Cpus κ) (e : CpuEvent κ × Option ℤ) : Decidable (Guarded s e) :=
  inferInstanceAs (Decidable (∀ i ∈ dispatched e, ∀ j, (s.scan j).bind Scan.tested ≠ some i))

end Cpus

/-! ## What a section does to the states -/

/-- What a step of `cur` does to the state of slot `j`. -/
inductive Procs.Moves (s : Procs) (cur : Fin NPROC) (a : Act) (r : Option ℤ) (s' : Procs)
    (j : Fin NPROC) : Prop
  | same (h : (s'.ptable.proc j).state = (s.ptable.proc j).state)
  | woken (h : (s.ptable.proc j).state = .SLEEPING) (h' : (s'.ptable.proc j).state = .RUNNABLE)
  | taken (ha : a = .allocproc) (h : (s.ptable.proc j).state = .UNUSED)
  | child (h : (s.pc cur).child = some j)
  | reaped (ha : a = .wait) (h : (s.ptable.proc j).state = .ZOMBIE)
    (h' : (s'.ptable.proc j).state = .UNUSED)
  | left (hj : j = cur) (hr : a.leaves r = true)
    (h' : (s'.ptable.proc j).state = .RUNNABLE → a = .yield)

namespace Procs

theorem Moves.of_woken {s s' : Procs} {cur j : Fin NPROC} {a : Act} {r : Option ℤ}
    (h : (s.ptable.proc j).Woken (s'.ptable.proc j)) : Moves s cur a r s' j := by
  rcases h.state with heq | ⟨hs, hr⟩
  · exact .same heq
  · exact .woken hs hr

theorem Moves.of_slot {s s' : Procs} {cur np j : Fin NPROC} {a : Act} {r : Option ℤ}
    (hother : j ≠ np → (s'.ptable.proc j).state = (s.ptable.proc j).state)
    (hnp : Moves s cur a r s' np) : Moves s cur a r s' j := by
  by_cases hj : j = np
  · rw [hj]
    exact hnp
  · exact .same (hother hj)

theorem exec_moves {s s' : Procs} {cur : Fin NPROC} {a : Act} {r : Option ℤ}
    (hs : s.exec cur a = some (r, s')) (j : Fin NPROC) : Moves s cur a r s' j := by
  cases a with
  | allocproc =>
    simp only [exec] at hs
    split at hs
    · split at hs
      · cases hs
        exact .same rfl
      · rename_i np t htake
        cases hs
        obtain ⟨hnp, rfl⟩ := Ptable.takeSlot_spec htake
        refine .of_slot (fun hj => ?_) (.taken rfl hnp)
        rw [put_ptable, Ptable.setProc_of_ne _ _ hj]
    · cases hs
  | kalloc ok =>
    simp only [exec] at hs
    split at hs
    · rename_i np hpc
      split at hs
      · cases hs
        exact .same rfl
      · cases hs
        refine .of_slot (fun hj => ?_) (.child (j := np) (by rw [hpc]; rfl))
        rw [put_ptable, Ptable.setState_of_ne _ _ hj]
    · cases hs
  | copyuvm ok =>
    simp only [exec] at hs
    split at hs
    · rename_i np hpc
      split at hs
      · cases hs
        refine .of_slot (fun hj => ?_) (.child (j := np) (by rw [hpc]; rfl))
        rw [put_ptable, Ptable.setProc_of_ne _ _ hj]
      · cases hs
        refine .of_slot (fun hj => ?_) (.child (j := np) (by rw [hpc]; rfl))
        rw [put_ptable, Ptable.setState_of_ne _ _ hj]
    · cases hs
  | runnable =>
    simp only [exec] at hs
    split at hs
    · rename_i np hpc
      cases hs
      refine .of_slot (fun hj => ?_) (.child (j := np) (by rw [hpc]; rfl))
      rw [put_ptable, put_ptable, Ptable.setState_of_ne _ _ hj]
    · cases hs
  | exit =>
    simp only [exec] at hs
    split at hs
    · obtain ⟨t, ht, heq⟩ := Option.map_eq_some_iff.1 hs
      cases heq
      have hexit := Ptable.exit_exited ht
      by_cases hj : j = cur
      · refine .left hj rfl fun hrun => ?_
        rw [hj] at hrun
        exact absurd (hexit.zombie.symm.trans hrun) (by decide)
      · exact .of_woken (hexit.woken j hj)
    · cases hs
  | wait =>
    simp only [exec, Option.ite_none_right_eq_some] at hs
    obtain ⟨hpc, hs⟩ := hs
    rcases Ptable.wait_cases cur (s.ptable.clearChan cur) with
      ⟨i, -, hz, hwait⟩ | hwait | ⟨-, hwait⟩ <;> rw [hwait] at hs <;>
      cases hs
    · rw [Ptable.clearChan_state] at hz
      refine .of_slot (fun hj => ?_) (.reaped rfl hz (by simp))
      rw [put_ptable, Ptable.setProc_of_ne _ _ hj, Ptable.clearChan_state]
    · exact .same (Ptable.clearChan_state ..)
    · refine .of_slot (fun hj => ?_) (.left rfl rfl (by simp [Ptable.sleep]))
      rw [put_ptable, Ptable.sleep, Ptable.setProc_of_ne _ _ hj, Ptable.clearChan_state]
  | kill pid =>
    simp only [exec] at hs
    split at hs
    · cases hs
      exact .of_woken (Ptable.kill_woken pid _ j)
    · cases hs
  | sleep chan =>
    simp only [exec] at hs
    split at hs
    · cases hs
      refine .of_slot (fun hj => ?_) (.left rfl rfl (by simp [Ptable.sleep]))
      rw [put_ptable, Ptable.sleep, Ptable.setProc_of_ne _ _ hj]
    · cases hs
  | resume =>
    simp only [exec] at hs
    split at hs
    · cases hs
      exact .same (Ptable.clearChan_state ..)
    · cases hs
  | yield =>
    cases hs
    refine .of_slot (fun hj => ?_) (.left rfl rfl fun _ => rfl)
    exact congrArg Proc.state (Ptable.setState_of_ne _ _ hj)

end Procs

/-! ## Runs whose dispatches are guarded -/

namespace Cpus

variable {κ : Type*} {s s' : Cpus κ}

/-- The invariant of guarded runs: the current process of a CPU runs, and a slot that has passed a
test sleeps or has been woken. -/
structure Ok (s : Cpus κ) : Prop where
  forking : s.procs.Forking
  running : ∀ k i, s.cpu k = some i → s.state i = .RUNNING
  single : s.Single
  tested : ∀ j i, (s.scan j).bind Scan.tested = some i → s.state i = .SLEEPING ∨
    s.state i = .RUNNABLE

theorem boot_ok : (boot : Cpus κ).Ok := by
  refine ⟨Procs.boot_forking, ?_, ?_, ?_⟩
  · rintro k i ⟨⟩
  · rintro k k' i ⟨⟩
  · rintro j i ⟨⟩

theorem Ok.act [DecidableEq κ] {k : κ} {cur : Fin NPROC} {a : Act} {r : Option ℤ} (h : s.Ok)
    (hcur : s.cpu k = some cur) (hexec : s.procs.exec cur a = some (r, s'.procs))
    (hcpu : s'.cpu = if a.leaves r then update s.cpu k none else s.cpu)
    (hscan : s'.scan = s.scan) : s'.Ok := by
  have hrun := h.running k cur hcur
  have hmoves := Procs.exec_moves hexec
  have hstep : s.procs.step (.act cur a, r) s'.procs := (if_pos hrun).trans hexec
  -- The slot of a child in `fork` is no process yet.
  have hchild : ∀ j, (s.procs.pc cur).child = some j → s.state j = .EMBRYO :=
    fun j hj => h.forking.embryo cur j hj
  refine ⟨h.forking.step (Procs.stepped_of_step hstep), fun k' i hi => ?_, fun k₁ k₂ i h₁ h₂ => ?_,
    fun j i hi => ?_⟩
  · have hi' : s.cpu k' = some i ∧ (i = cur → a.leaves r = false) := by
      rw [hcpu] at hi
      split at hi
      · by_cases hk : k' = k
        · rw [hk, update_self] at hi
          cases hi
        · rw [update_of_ne hk] at hi
          exact ⟨hi, fun hicur => absurd (h.single k' k i hi (hicur ▸ hcur)) hk⟩
      · rename_i hleaves
        exact ⟨hi, fun _ => by simpa using hleaves⟩
    have hst := h.running k' i hi'.1
    cases hmoves i with
    | same heq => exact heq.trans hst
    | woken hs _ => exact absurd (hst.symm.trans hs) (by decide)
    | taken _ hs => exact absurd (hst.symm.trans hs) (by decide)
    | child hc => exact absurd (hst.symm.trans (hchild i hc)) (by decide)
    | reaped _ hs _ => exact absurd (hst.symm.trans hs) (by decide)
    | left hicur hleaves _ => exact absurd (hleaves.symm.trans (hi'.2 hicur)) (by decide)
  · have hold : ∀ k₀, s'.cpu k₀ = some i → s.cpu k₀ = some i := by
      intro k₀ hk₀
      rw [hcpu] at hk₀
      split at hk₀
      · by_cases hk : k₀ = k
        · rw [hk, update_self] at hk₀
          cases hk₀
        · rwa [update_of_ne hk] at hk₀
      · exact hk₀
    exact h.single k₁ k₂ i (hold k₁ h₁) (hold k₂ h₂)
  · rw [hscan] at hi
    have hst := h.tested j i hi
    have hne : ∀ st, st ≠ .SLEEPING → st ≠ .RUNNABLE → s.state i ≠ st := by
      rintro st hs hr rfl
      exact hst.elim hs hr
    cases hmoves i with
    | same heq => exact hst.imp heq.trans heq.trans
    | woken _ hr => exact .inr hr
    | taken _ hs => exact absurd hs (hne _ (by decide) (by decide))
    | child hc => exact absurd (hchild i hc) (hne _ (by decide) (by decide))
    | reaped _ hs _ => exact absurd hs (hne _ (by decide) (by decide))
    | left hicur _ _ => exact absurd (hicur ▸ hrun) (hne _ (by decide) (by decide))

theorem Ok.act_orderly {k : κ} {cur : Fin NPROC} {a : Act} {r : Option ℤ} (h : s.Ok)
    (hcur : s.cpu k = some cur) (hexec : s.procs.exec cur a = some (r, s'.procs)) :
    Orderly s (.act k a) s' := by
  have hrun := h.running k cur hcur
  have hmoves := Procs.exec_moves hexec
  have hchild : ∀ j, (s.procs.pc cur).child = some j → s.state j = .EMBRYO :=
    fun j hj => h.forking.embryo cur j hj
  refine ⟨fun i hi hi' => ?_, fun i hi hi' => ?_, fun i hi hi' => ?_⟩
  · cases hmoves i with
    | same heq => exact absurd (heq.trans hi) hi'
    | woken hs _ => exact absurd (hi.symm.trans hs) (by decide)
    | taken _ hs => exact absurd (hi.symm.trans hs) (by decide)
    | child hc => exact absurd (hi.symm.trans (hchild i hc)) (by decide)
    | reaped ha _ _ => exact ⟨k, by rw [ha]⟩
    | left hicur _ _ => exact absurd (hi.symm.trans (hicur ▸ hrun)) (by decide)
  · cases hmoves i with
    | same heq => exact absurd (heq.trans hi) hi'
    | woken hs _ => exact absurd (hi.symm.trans hs) (by decide)
    | taken ha _ => exact ⟨k, by rw [ha]⟩
    | child hc => exact absurd (hi.symm.trans (hchild i hc)) (by decide)
    | reaped _ hs _ => exact absurd (hi.symm.trans hs) (by decide)
    | left hicur _ _ => exact absurd (hi.symm.trans (hicur ▸ hrun)) (by decide)
  · have hne : ∀ st, st ≠ .ZOMBIE → st ≠ .RUNNING → s.state i ≠ st := by
      rintro st hz hr rfl
      exact hi.elim hz hr
    cases hmoves i with
    | same heq => exact absurd (heq.symm.trans hi') (hne _ (by decide) (by decide))
    | woken hs _ => exact absurd hs (hne _ (by decide) (by decide))
    | taken _ hs => exact absurd hs (hne _ (by decide) (by decide))
    | child hc => exact absurd (hchild i hc) (hne _ (by decide) (by decide))
    | reaped _ _ hu => exact absurd (hu.symm.trans hi') (by decide)
    | left hicur _ ha => exact ⟨k, by rw [ha hi'], hicur ▸ hcur⟩

theorem Orderly.of_idle {e : CpuEvent κ}
    (h : ∀ i, s'.state i = s.state i ∨ s.state i = .SLEEPING ∨ s.state i = .RUNNABLE) :
    Orderly s e s' := by
  have hsame : ∀ i st, s.state i = st → st ≠ .SLEEPING → st ≠ .RUNNABLE → s'.state i = st := by
    rintro i st rfl hs hr
    rcases h i with heq | hst
    · exact heq
    · exact absurd hst (not_or.2 ⟨hs, hr⟩)
  refine ⟨fun i hi hi' => ?_, fun i hi hi' => ?_, fun i hi hi' => ?_⟩
  · exact absurd (hsame i _ hi (by decide) (by decide)) hi'
  · exact absurd (hsame i _ hi (by decide) (by decide)) hi'
  · rcases hi with hi | hi <;>
      exact absurd ((hsame i _ hi (by decide) (by decide)).symm.trans hi') (by decide)

theorem Ok.of_woken (h : s.Ok) (s' : Cpus κ) (e : CpuEvent κ) (hforking : s'.procs.Forking)
    (hcpu : s'.cpu = s.cpu)
    (hstate : ∀ i, s'.state i = s.state i ∨
      (s.state i = .SLEEPING ∨ s.state i = .RUNNABLE) ∧ s'.state i = .RUNNABLE)
    (htested : ∀ j i, (s'.scan j).bind Scan.tested = some i →
      s.state i = .SLEEPING ∨ s.state i = .RUNNABLE) : s'.Ok ∧ Orderly s e s' := by
  refine ⟨⟨hforking, fun k i hi => ?_, fun k k' i hi hi' => ?_, fun j i hi => ?_⟩,
    .of_idle fun i => (hstate i).imp_right And.left⟩
  · rw [hcpu] at hi
    have hrun := h.running k i hi
    rcases hstate i with heq | ⟨hst, -⟩
    · exact heq.trans hrun
    · rw [hrun] at hst
      exact absurd hst (by decide)
  · rw [hcpu] at hi hi'
    exact h.single k k' i hi hi'
  · have hst := htested j i hi
    rcases hstate i with heq | ⟨-, hr⟩
    · exact hst.imp heq.trans heq.trans
    · exact .inr hr

theorem tested_next (chan : Chan) (i : Fin NPROC) : (Scan.next chan i).bind Scan.tested = none := by
  unfold Scan.next
  split <;> rfl

theorem tested_update {cur j i : Fin NPROC} {sc : Option Scan}
    (h : (update s.scan cur sc j).bind Scan.tested = some i) :
    (s.scan j).bind Scan.tested = some i ∨ sc.bind Scan.tested = some i := by
  by_cases hj : j = cur
  · rw [hj, update_self] at h
    exact .inr h
  · rw [update_of_ne hj] at h
    exact .inl h

theorem Ok.scanStep {cur : Fin NPROC} {sc : Scan} (h : s.Ok) (hsc : s.scan cur = some sc)
    (e : CpuEvent κ) : (s.scanStep cur sc).Ok ∧ Orderly s e (s.scanStep cur sc) := by
  cases sc with
  | state chan i =>
    refine h.of_woken _ e h.forking rfl (fun j => .inl rfl) fun j m hm => ?_
    rcases tested_update hm with hm | hm
    · exact h.tested j m hm
    · split at hm
      · rename_i hsleep
        obtain rfl : i = m := Option.some.inj hm
        exact .inl hsleep
      · rw [tested_next] at hm
        cases hm
  | chan chan i =>
    refine h.of_woken _ e h.forking rfl (fun j => .inl rfl) fun j m hm => ?_
    rcases tested_update hm with hm | hm
    · exact h.tested j m hm
    · split at hm
      · exact h.tested cur m (by rw [hsc]; exact hm)
      · rw [tested_next] at hm
        cases hm
  | store chan i =>
    -- The test is not stale: the process still sleeps, or has been woken.
    have hst := h.tested cur i (by rw [hsc]; rfl)
    have hslot : ∀ j, Procs.Stirred s.procs
        { s.procs with ptable := s.procs.ptable.setState i .RUNNABLE } j := by
      intro j
      by_cases hj : j = i
      · subst hj
        have hstarted : (s.procs.ptable.proc j).state.Started := hst.elim .inl fun hr => .inr (.inl hr)
        exact ⟨by simp, by simp, .inr ⟨hstarted, by simp [ProcState.Started]⟩, .inl rfl, by simp⟩
      · exact .of_eq (Ptable.setState_of_ne _ _ hj) rfl
    refine h.of_woken _ e (h.forking.of_stirred rfl hslot) rfl (fun j => ?_) fun j m hm => ?_
    · by_cases hj : j = i
      · subst hj
        exact .inr ⟨hst, by simp [state, Cpus.scanStep]⟩
      · exact .inl (congrArg Proc.state (Ptable.setState_of_ne _ _ hj))
    · rcases tested_update hm with hm | hm
      · exact h.tested j m hm
      · rw [tested_next] at hm
        cases hm

theorem Ok.dispatch [DecidableEq κ] {k : κ} {i : Fin NPROC} (h : s.Ok) (hst : s.state i = .RUNNABLE)
    (hC : ∀ j, (s.scan j).bind Scan.tested ≠ some i) :
    let s' : Cpus κ := { s with
      procs := { s.procs with ptable := s.procs.ptable.setState i .RUNNING }
      cpu := update s.cpu k (some i) }
    s'.Ok ∧ Orderly s (.dispatch k i) s' := by
  intro s'
  have hother : ∀ j, j ≠ i → s'.state j = s.state j :=
    fun j hj => congrArg Proc.state (Ptable.setState_of_ne _ _ hj)
  have hself : s'.state i = .RUNNING := by simp [s', state]
  have hcpu : ∀ k' j, s'.cpu k' = some j → k' = k ∧ j = i ∨ s.cpu k' = some j := by
    intro k' j hj
    by_cases hk : k' = k
    · rw [hk] at hj
      simp only [s', update_self] at hj
      exact .inl ⟨hk, (Option.some.inj hj).symm⟩
    · simp only [s', update_of_ne hk] at hj
      exact .inr hj
  -- It is not current anywhere, since it does not run.
  have hidle : ∀ k', s.cpu k' ≠ some i := by
    intro k' hk'
    exact absurd ((h.running k' i hk').symm.trans hst) (by decide)
  have hstep : s.procs.step (.dispatch i, none) s'.procs := if_pos hst
  refine ⟨⟨h.forking.step (Procs.stepped_of_step hstep), fun k' j hj => ?_,
    fun k₁ k₂ j h₁ h₂ => ?_, fun j m hm => ?_⟩, .of_idle fun j => ?_⟩
  · rcases hcpu k' j hj with ⟨-, rfl⟩ | hold
    · exact hself
    · have hji : j ≠ i := by
        rintro rfl
        exact hidle k' hold
      exact (hother j hji).trans (h.running k' j hold)
  · rcases hcpu k₁ j h₁ with ⟨rfl, rfl⟩ | hold₁ <;> rcases hcpu k₂ j h₂ with ⟨rfl, hji⟩ | hold₂
    · rfl
    · exact absurd hold₂ (hidle k₂)
    · exact absurd (hji ▸ hold₁) (hidle k₁)
    · exact h.single k₁ k₂ j hold₁ hold₂
  · have hmi : m ≠ i := by
      rintro rfl
      exact hC j hm
    rw [hother m hmi]
    exact h.tested j m hm
  · by_cases hj : j = i
    · exact .inr (.inr (hj ▸ hst))
    · exact .inl (hother j hj)

theorem Ok.step [DecidableEq κ] {e : CpuEvent κ × Option ℤ} (h : s.Ok) (hC : Guarded s e)
    (hs : s.step e s') : s'.Ok ∧ Orderly s e.1 s' := by
  obtain ⟨e, r⟩ := e
  cases e with
  | act k a =>
    simp only [Cpus.step, next] at hs
    split at hs
    · cases hs
    · rename_i cur hcur
      split at hs
      · split at hs
        · cases hs
        · rename_i p hexec
          cases hs
          exact ⟨h.act hcur hexec rfl rfl, h.act_orderly hcur hexec⟩
      · cases hs
  | dispatch k i =>
    simp only [Cpus.step, next, Option.ite_none_right_eq_some] at hs
    obtain ⟨⟨-, hst⟩, hs⟩ := hs
    cases hs
    exact h.dispatch hst (hC i rfl)
  | wakeup chan =>
    cases hs
    have hstep : s.procs.step (.wakeup chan, none)
      { s.procs with ptable := s.procs.ptable.wakeup1 chan } := rfl
    refine h.of_woken _ _ (h.forking.step (Procs.stepped_of_step hstep)) rfl (fun i => ?_) h.tested
    rcases (s.procs.ptable.wakeup1_woken chan i).state with heq | ⟨hsleep, hr⟩
    · exact .inl heq
    · exact .inr ⟨.inl hsleep, hr⟩
  | wakeupcustom k chan =>
    simp only [Cpus.step, next] at hs
    split at hs
    · cases hs
    · split at hs
      · cases hs
        refine h.of_woken _ _ h.forking rfl (fun i => .inl rfl) fun j i hi => ?_
        rcases tested_update hi with hi | hi
        · exact h.tested j i hi
        · cases hi
      · cases hs
  | scan k =>
    simp only [Cpus.step, next] at hs
    split at hs
    · cases hs
    · split at hs
      · cases hs
      · rename_i sc hsc
        cases hs
        exact h.scanStep hsc _

/-- In every run in which no scheduler dispatches a process that a loop without the lock has tested
and not yet stored to, the states change as they should and no process is current on two CPUs. -/
theorem wellScheduled_of_guarded [DecidableEq κ] {π : List ((CpuEvent κ × Option ℤ) × Cpus κ)}
    (h : IsRun step boot π) (hC : Meets Guarded boot π) : Along (WellScheduled boot) π := by
  have hall := h.along_of_meets (P := fun π => (last boot π).Ok ∧ WellScheduled boot π)
    ⟨boot_ok, boot_ok.single⟩ ?_ hC
  · exact hall.mono fun _ hP => hP.2
  · rintro e s π ⟨hok, -⟩ hguard hstep
    obtain ⟨hok', horderly⟩ := hok.step hguard hstep
    exact ⟨hok', hok'.single, horderly⟩

open Procs (init child grandchild)

def forkEvents (k : κ) : List (CpuEvent κ) :=
  [.act k .allocproc, .act k (.kalloc true), .act k (.copyuvm true), .act k .runnable]

def testedEvents : List (CpuEvent Bool) :=
  [.dispatch false init] ++ forkEvents false ++ forkEvents false ++
    [.dispatch true child, .act true (.sleep (.proc init)), .dispatch true grandchild,
      .wakeupcustom false (.proc init), .scan false, .scan false, .scan false]

/-- The store comes at once, and the sleeper is dispatched after it. -/
theorem wellScheduled_of_prompt_store :
    ∃ π, IsRun step boot π ∧ Meets Guarded boot π ∧ (last boot π).cpu true = some child ∧
      Along (WellScheduled boot) π := by
  have heval : (history (tickOut next) boot [] (testedEvents ++
      [.scan false, .act true .yield, .dispatch true child])).map
        (fun π => (decide (Meets Guarded boot π), (last boot π).cpu true)) =
      some (true, some child) := by
    decide +kernel
  obtain ⟨π, hrun, heq⟩ := exists_run_tickOut heval
  obtain ⟨hmeets, hcpu⟩ := Prod.mk.inj heq
  have hguard := of_decide_eq_true hmeets
  exact ⟨π, hrun, hguard, hcpu, wellScheduled_of_guarded hrun hguard⟩

/-- The other child kills the sleeper, which is woken and dispatched before the store. If it still
runs, then the store makes it `RUNNABLE`, and a second CPU dispatches it as well. If it has exited,
then the store makes a zombie `RUNNABLE`. -/
theorem stale_store_runs_twice_or_revives :
    (∃ π : List ((CpuEvent Bool × Option ℤ) × Cpus Bool), IsRun step boot π ∧
      (last boot π).cpu false = some child ∧ (last boot π).cpu true = some child ∧
      ¬Along (WellScheduled boot) π) ∧
    ∃ π : List ((CpuEvent Bool × Option ℤ) × Cpus Bool), IsRun step boot π ∧
      (π.map Prod.fst).head? = some (.scan false, none) ∧
      (last boot π.tail).state child = .ZOMBIE ∧ (last boot π).state child = .RUNNABLE ∧
      ¬Along (WellScheduled boot) π := by
  constructor
  · have heval : (history (tickOut next) boot [] (testedEvents ++ [.act true (.kill 2), .act true .yield,
        .dispatch true child, .scan false, .act false .yield, .dispatch false child])).map
          (fun π => ((last boot π).cpu false, (last boot π).cpu true)) =
        some (some child, some child) := by
      decide +kernel
    obtain ⟨π, hrun, heq⟩ := exists_run_tickOut heval
    obtain ⟨hfalse, htrue⟩ := Prod.mk.inj heq
    refine ⟨π, hrun, hfalse, htrue, fun hwell => ?_⟩
    have hsingle : (last boot π).Single := by
      cases π with
      | nil => exact hwell
      | cons x π => exact hwell.1.1
    exact absurd (hsingle false true child hfalse htrue) (by decide)
  · have heval : (history (tickOut next) boot [] (testedEvents ++ [.act true (.kill 2), .act true .yield,
        .dispatch true child, .act true .resume, .act true .exit, .scan false])).map
          (fun π => ((π.map Prod.fst).head?, (last boot π.tail).state child,
            (last boot π).state child)) =
        some (some (.scan false, none), .ZOMBIE, .RUNNABLE) := by
      decide +kernel
    obtain ⟨π, hrun, heq⟩ := exists_run_tickOut heval
    obtain ⟨hhead, heq⟩ := Prod.mk.inj heq
    obtain ⟨hzombie, hrunnable⟩ := Prod.mk.inj heq
    refine ⟨π, hrun, hhead, hzombie, hrunnable, fun hwell => ?_⟩
    obtain ⟨⟨e, s⟩, π', rfl, rfl⟩ : ∃ x π', π = x :: π' ∧ x.1 = (.scan false, none) := by
      cases π with
      | nil => cases hhead
      | cons x π => exact ⟨x, π, rfl, Option.some.inj hhead⟩
    obtain ⟨k, hk, -⟩ := hwell.1.2.runnable child (.inl hzombie) hrunnable
    cases hk

end Cpus

end Xv6
