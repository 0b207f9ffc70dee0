import Xv6.Proc.Machine

/-!
# What a step of the processes does

`Procs.Stepped` lists everything that a step can do, with the guards that the invariants use. The
steps that neither start nor end a process are one case of it: they leave the tree of processes, and
`Stirred` says what they do to a slot. The loop of `exit` over the children is summed up by
`Ptable.Exited`.

`Procs.Forking` is the invariant that the later modules share: a slot that `fork` has taken belongs
to one caller, which has not exited, until it is given back or started.
-/

namespace Xv6

open Function Run

def ProcState.Started (st : ProcState) : Prop := st = .SLEEPING ∨ st = .RUNNABLE ∨ st = .RUNNING

instance (st : ProcState) : Decidable st.Started := inferInstanceAs (Decidable (_ ∨ _ ∨ _))

theorem Proc.Woken.started {p q : Proc} (h : p.Woken q) :
    q.state = p.state ∨ p.state.Started ∧ q.state.Started := by
  rcases h.state with hs | ⟨hs, hr⟩
  · exact .inl hs
  · exact .inr ⟨.inl hs, .inr (.inl hr)⟩

namespace Ptable

theorem setProc_apply (t : Ptable) (i : Fin NPROC) (p : Proc) (j : Fin NPROC) :
    (t.setProc i p).proc j = if j = i then p else t.proc j := by
  simp [setProc, update_apply]

@[simp] theorem setState_self (t : Ptable) (i : Fin NPROC) (st : ProcState) :
    (t.setState i st).proc i = { t.proc i with state := st } := by
  simp [setState]

theorem setState_of_ne (t : Ptable) {i j : Fin NPROC} (st : ProcState) (h : j ≠ i) :
    (t.setState i st).proc j = t.proc j := by
  simp [setState, setProc_of_ne _ _ h]

@[simp] theorem clearChan_self (t : Ptable) (i : Fin NPROC) :
    (t.clearChan i).proc i = { t.proc i with chan := none } := by
  simp [clearChan]

theorem clearChan_of_ne (t : Ptable) {i j : Fin NPROC} (h : j ≠ i) :
    (t.clearChan i).proc j = t.proc j := by
  simp [clearChan, setProc_of_ne _ _ h]

@[simp] theorem setState_initproc (t : Ptable) (i : Fin NPROC) (st : ProcState) :
    (t.setState i st).initproc = t.initproc := rfl

@[simp] theorem setState_nextpid (t : Ptable) (i : Fin NPROC) (st : ProcState) :
    (t.setState i st).nextpid = t.nextpid := rfl

theorem setState_congr {α : Type*} (f : Proc → α) {st : ProcState}
    (hf : ∀ p : Proc, f { p with state := st } = f p) (t : Ptable) (i j : Fin NPROC) :
    f ((t.setState i st).proc j) = f (t.proc j) := by
  by_cases h : j = i
  · rw [h, setState_self, hf]
  · rw [setState_of_ne _ _ h]

theorem clearChan_congr {α : Type*} (f : Proc → α)
    (hf : ∀ p : Proc, f { p with chan := none } = f p) (t : Ptable) (i j : Fin NPROC) :
    f ((t.clearChan i).proc j) = f (t.proc j) := by
  by_cases h : j = i
  · rw [h, clearChan_self, hf]
  · rw [clearChan_of_ne _ h]

@[simp] theorem clearChan_state (t : Ptable) (i j : Fin NPROC) :
    ((t.clearChan i).proc j).state = (t.proc j).state :=
  clearChan_congr Proc.state (fun _ => rfl) t i j

@[simp] theorem clearChan_pid (t : Ptable) (i j : Fin NPROC) :
    ((t.clearChan i).proc j).pid = (t.proc j).pid :=
  clearChan_congr Proc.pid (fun _ => rfl) t i j

@[simp] theorem clearChan_parent (t : Ptable) (i j : Fin NPROC) :
    ((t.clearChan i).proc j).parent = (t.proc j).parent :=
  clearChan_congr Proc.parent (fun _ => rfl) t i j

@[simp] theorem clearChan_killed (t : Ptable) (i j : Fin NPROC) :
    ((t.clearChan i).proc j).killed = (t.proc j).killed :=
  clearChan_congr Proc.killed (fun _ => rfl) t i j

@[simp] theorem setState_pid (t : Ptable) (i j : Fin NPROC) (st : ProcState) :
    ((t.setState i st).proc j).pid = (t.proc j).pid :=
  setState_congr Proc.pid (fun _ => rfl) t i j

@[simp] theorem setState_parent (t : Ptable) (i j : Fin NPROC) (st : ProcState) :
    ((t.setState i st).proc j).parent = (t.proc j).parent :=
  setState_congr Proc.parent (fun _ => rfl) t i j

@[simp] theorem setState_killed (t : Ptable) (i j : Fin NPROC) (st : ProcState) :
    ((t.setState i st).proc j).killed = (t.proc j).killed :=
  setState_congr Proc.killed (fun _ => rfl) t i j

theorem takeSlot_spec {t t' : Ptable} {i : Fin NPROC} (h : t.takeSlot = some (i, t')) :
    (t.proc i).state = .UNUSED ∧
      t' = { t.setProc i { t.proc i with state := .EMBRYO, pid := t.nextpid, container_id := -1 }
        with nextpid := succ32 t.nextpid } := by
  unfold takeSlot at h
  split at h
  · cases h
  · rename_i j hfind
    cases h
    exact ⟨by simpa using find_some hfind, rfl⟩

theorem wakeup1_parent (t : Ptable) (chan : Chan) (i : Fin NPROC) :
    ((t.wakeup1 chan).proc i).parent = (t.proc i).parent ∧
      ((t.wakeup1 chan).proc i).killed = (t.proc i).killed := by
  simp only [wakeup1]
  split <;> exact ⟨rfl, rfl⟩

def adopt (cur : Fin NPROC) (t : Ptable) (i : Fin NPROC) : Ptable :=
  if (t.proc i).parent = some cur then
    let t := t.setProc i { t.proc i with parent := some t.initproc }
    if (t.proc i).state = .ZOMBIE then t.wakeup1 (.proc t.initproc) else t
  else t

/-- What the loop of `exit` has done to `t` when it has seen the slots in `l`: the children of `cur`
among them are those of init, and a zombie among these has woken it. -/
structure Adopted (cur : Fin NPROC) (l : List (Fin NPROC)) (t t' : Ptable) : Prop where
  initproc : t'.initproc = t.initproc
  nextpid : t'.nextpid = t.nextpid
  woken : ∀ i, (t.proc i).Woken (t'.proc i)
  killed : ∀ i, (t'.proc i).killed = (t.proc i).killed
  parent : ∀ i, (t'.proc i).parent =
    if i ∈ l ∧ (t.proc i).parent = some cur then some t.initproc else (t.proc i).parent
  wakes : (∃ i ∈ l, (t.proc i).parent = some cur ∧ (t.proc i).state = .ZOMBIE) →
    (t.proc t.initproc).chan = some (.proc t.initproc) →
      (t'.proc t.initproc).state ≠ .SLEEPING

theorem adopt_spec (cur : Fin NPROC) (t : Ptable) (i : Fin NPROC) :
    Adopted cur [i] t (t.adopt cur i) := by
  unfold adopt
  by_cases hi : (t.proc i).parent = some cur
  · rw [if_pos hi]
    have hset : ∀ j, (t.proc j).Woken
        ((t.setProc i { t.proc i with parent := some t.initproc }).proc j) :=
      rel_setProc .refl ⟨rfl, rfl, rfl, .inl rfl⟩
    have hkilled : ∀ j, ((t.setProc i { t.proc i with parent := some t.initproc }).proc j).killed =
        (t.proc j).killed :=
      rel_setProc (R := fun p q => q.killed = p.killed) (fun _ => rfl) rfl
    have hparent : ∀ j, ((t.setProc i { t.proc i with parent := some t.initproc }).proc j).parent =
        if j ∈ [i] ∧ (t.proc j).parent = some cur then some t.initproc else (t.proc j).parent := by
      intro j
      by_cases hj : j = i
      · subst hj
        simp [hi]
      · simp [setProc_of_ne _ _ hj, hj]
    simp only
    split
    · refine ⟨rfl, rfl, fun j => (hset j).trans (wakeup1_woken _ _ j), fun j => ?_, fun j => ?_,
        fun _ hchan => wakeup1_not_sleeping ((hset _).chan.trans hchan)⟩
      · rw [(wakeup1_parent _ _ j).2, hkilled]
      · rw [(wakeup1_parent _ _ j).1, hparent]
    · rename_i hz
      refine ⟨rfl, rfl, hset, hkilled, hparent, ?_⟩
      rintro ⟨j, hj, -, hzombie⟩
      obtain rfl := List.mem_singleton.1 hj
      exact absurd (by simpa using hzombie) hz
  · rw [if_neg hi]
    refine ⟨rfl, rfl, fun _ => .refl _, fun _ => rfl, fun j => ?_, ?_⟩
    · rw [if_neg]
      rintro ⟨hj, hpar⟩
      exact hi (List.mem_singleton.1 hj ▸ hpar)
    · rintro ⟨j, hj, hpar, -⟩
      exact absurd (List.mem_singleton.1 hj ▸ hpar) hi

theorem Adopted.cons {cur i : Fin NPROC} {l : List (Fin NPROC)} {t u v : Ptable}
    (hcur : cur ≠ t.initproc) (h1 : Adopted cur [i] t u) (h2 : Adopted cur l u v) :
    Adopted cur (i :: l) t v := by
  have hparent : ∀ j, (u.proc j).parent = some cur ↔ j ≠ i ∧ (t.proc j).parent = some cur := by
    intro j
    rw [h1.parent]
    by_cases hj : j = i ∧ (t.proc j).parent = some cur
    · obtain ⟨rfl, hpar⟩ := hj
      have hne : t.initproc ≠ cur := fun h => hcur h.symm
      simp [hpar, hne]
    · rw [if_neg (by simpa using hj)]
      exact ⟨fun h => ⟨fun hji => hj ⟨hji, h⟩, h⟩, fun h => h.2⟩
  refine ⟨h2.initproc.trans h1.initproc, h2.nextpid.trans h1.nextpid,
    fun j => (h1.woken j).trans (h2.woken j), fun j => (h2.killed j).trans (h1.killed j),
    fun j => ?_, ?_⟩
  · rw [h2.parent, h1.parent, h1.initproc]
    by_cases hpar : (t.proc j).parent = some cur
    · by_cases hj : j = i
      · simp [hj ▸ hpar, hj]
      · simp [hpar, hj]
    · simp [hpar]
  · rintro ⟨j, hj, hpar, hz⟩ hchan
    by_cases hji : j = i
    · -- Init is woken now, and nothing puts it back to sleep.
      have hawake := h1.wakes ⟨j, by simp [hji], hpar, hz⟩ hchan
      exact fun hs => hawake ((h2.woken _).sleeping hs)
    · have hmem : j ∈ l := by simpa [hji] using hj
      have hzombie : (u.proc j).state = .ZOMBIE := by
        rcases (h1.woken j).state with hs | ⟨hs, -⟩
        · exact hs.trans hz
        · exact absurd (hs.symm.trans hz) (by decide)
      rw [← h1.initproc] at hchan ⊢
      refine h2.wakes ⟨j, hmem, (hparent j).2 ⟨hji, hpar⟩, hzombie⟩ ?_
      rw [h1.initproc, (h1.woken _).chan, ← h1.initproc]
      exact hchan

theorem reparent_adopted {cur : Fin NPROC} {t : Ptable} (hcur : cur ≠ t.initproc) :
    Adopted cur (List.finRange NPROC) t (t.reparent cur) := by
  show Adopted cur _ t ((List.finRange NPROC).foldl (adopt cur) t)
  generalize List.finRange NPROC = l
  induction l generalizing t with
  | nil =>
    refine ⟨rfl, rfl, fun _ => .refl _, fun _ => rfl, fun i => by simp, ?_⟩
    rintro ⟨i, hi, -⟩
    cases hi
  | cons i l ih =>
    have h1 := adopt_spec cur t i
    rw [List.foldl_cons]
    exact h1.cons hcur (ih (by rwa [h1.initproc]))

def wakeParent (cur : Fin NPROC) (t : Ptable) : Ptable :=
  match (t.proc cur).parent with
  | some i => t.wakeup1 (.proc i)
  | none => t

theorem exit_eq (cur : Fin NPROC) (t : Ptable) :
    t.exit cur = if cur = t.initproc then none else
      some (((t.wakeParent cur).reparent cur).setState cur .ZOMBIE) := by
  unfold exit
  refine if_congr Iff.rfl rfl ?_
  unfold wakeParent setState
  cases (t.proc cur).parent with
  | none => dsimp only
  | some i => dsimp only

/-- What `exit` of slot `cur` does. It wakes the parent of `cur`, and init if that inherits a
zombie. -/
structure Exited (cur : Fin NPROC) (t t' : Ptable) : Prop where
  ne_init : cur ≠ t.initproc
  initproc : t'.initproc = t.initproc
  nextpid : t'.nextpid = t.nextpid
  zombie : (t'.proc cur).state = .ZOMBIE
  pid : ∀ i, (t'.proc i).pid = (t.proc i).pid
  woken : ∀ i, i ≠ cur → (t.proc i).Woken (t'.proc i)
  killed : ∀ i, (t'.proc i).killed = (t.proc i).killed
  parent : ∀ i, (t'.proc i).parent =
    if (t.proc i).parent = some cur then some t.initproc else (t.proc i).parent
  wakes_parent : ∀ i, i ≠ cur → (t.proc cur).parent = some i →
    (t.proc i).chan = some (.proc i) → (t'.proc i).state ≠ .SLEEPING
  wakes_init : (∃ i, (t.proc i).parent = some cur ∧ (t.proc i).state = .ZOMBIE) →
    (t.proc t.initproc).chan = some (.proc t.initproc) →
      (t'.proc t.initproc).state ≠ .SLEEPING

theorem exit_exited {cur : Fin NPROC} {t t' : Ptable} (h : t.exit cur = some t') :
    Exited cur t t' := by
  rw [exit_eq] at h
  split at h
  · cases h
  rename_i hcur
  cases h
  obtain ⟨u, hu⟩ : ∃ u, u = t.wakeParent cur := ⟨_, rfl⟩
  have hu0 : u.initproc = t.initproc ∧ u.nextpid = t.nextpid := by
    rw [hu, wakeParent]
    split <;> exact ⟨rfl, rfl⟩
  have hwoken : ∀ i, (t.proc i).Woken (u.proc i) := by
    intro i
    rw [hu, wakeParent]
    split
    · exact wakeup1_woken _ _ _
    · exact .refl _
  have hsame : ∀ i, (u.proc i).parent = (t.proc i).parent ∧
      (u.proc i).killed = (t.proc i).killed := by
    intro i
    rw [hu, wakeParent]
    split
    · exact wakeup1_parent _ _ _
    · exact ⟨rfl, rfl⟩
  have hadopt : Adopted cur (List.finRange NPROC) u (u.reparent cur) :=
    reparent_adopted (by rwa [hu0.1])
  have hset : ∀ i, i ≠ cur → ((u.reparent cur).setState cur .ZOMBIE).proc i =
      (u.reparent cur).proc i := fun i hi => setState_of_ne _ _ hi
  rw [← hu]
  refine ⟨hcur, ?_, ?_, by simp, fun i => ?_, fun i hi => ?_, fun i => ?_, fun i => ?_,
    fun i hi hpar hchan => ?_, fun hz hchan => ?_⟩
  · rw [setState_initproc, hadopt.initproc, hu0.1]
  · rw [setState_nextpid, hadopt.nextpid, hu0.2]
  · rw [setState_pid, (hadopt.woken i).pid, (hwoken i).pid]
  · rw [hset i hi]
    exact (hwoken i).trans (hadopt.woken i)
  · rw [setState_killed, hadopt.killed, (hsame i).2]
  · have hparent := hadopt.parent i
    simp only [List.mem_finRange, true_and, (hsame i).1, hu0.1] at hparent
    rw [setState_parent, hparent]
  · rw [hset i hi]
    intro hsleep
    have hu' := (hadopt.woken i).sleeping hsleep
    rw [hu, wakeParent, hpar] at hu'
    dsimp only at hu'
    exact wakeup1_not_sleeping hchan hu'
  · rw [hset _ (Ne.symm hcur)]
    obtain ⟨i, hpar, hzombie⟩ := hz
    rw [← hu0.1] at hchan ⊢
    refine hadopt.wakes ⟨i, List.mem_finRange i, (hsame i).1.trans hpar, ?_⟩ ?_
    · rcases (hwoken i).state with hs | ⟨hs, -⟩
      · exact hs.trans hzombie
      · exact absurd (hs.symm.trans hzombie) (by decide)
    · rw [(hwoken _).chan]
      exact hchan

theorem find_none {t : Ptable} {test : Proc → Bool} (h : t.find test = none) (i : Fin NPROC) :
    test (t.proc i) = false := by
  simpa using List.find?_eq_none.1 h i (List.mem_finRange i)

theorem wait_cases (cur : Fin NPROC) (t : Ptable) :
    (∃ i, (t.proc i).parent = some cur ∧ (t.proc i).state = .ZOMBIE ∧
        t.wait cur = (some (t.proc i).pid, t.setProc i
          { t.proc i with pid := 0, parent := none, killed := false, state := .UNUSED })) ∨
      t.wait cur = (some (-1), t) ∨
      (∀ i, (t.proc i).parent = some cur → (t.proc i).state ≠ .ZOMBIE) ∧
        t.wait cur = (none, t.sleep (.proc cur) cur) := by
  unfold wait
  cases hfind : t.find (fun p => p.parent = some cur ∧ p.state = .ZOMBIE) with
  | some i =>
    have hi : (t.proc i).parent = some cur ∧ (t.proc i).state = .ZOMBIE := by
      simpa using find_some hfind
    exact .inl ⟨i, hi.1, hi.2, rfl⟩
  | none =>
    simp only
    split
    · exact .inr (.inl rfl)
    · refine .inr (.inr ⟨fun i hpar hz => ?_, rfl⟩)
      simpa [hpar, hz] using find_none hfind i

theorem kill_parent (pid : ℤ) (t : Ptable) (i : Fin NPROC) :
    ((t.kill pid).2.proc i).parent = (t.proc i).parent := by
  unfold kill
  cases t.find (fun p => p.pid = pid) with
  | none => rfl
  | some j =>
    refine rel_setProc (R := fun p q => q.parent = p.parent) (fun _ => rfl) ?_ i
    dsimp only
    split <;> rfl

@[simp] theorem kill_initproc (pid : ℤ) (t : Ptable) : (t.kill pid).2.initproc = t.initproc := by
  unfold kill
  cases t.find (fun p => p.pid = pid) with
  | none => rfl
  | some j => rfl

@[simp] theorem kill_nextpid (pid : ℤ) (t : Ptable) : (t.kill pid).2.nextpid = t.nextpid := by
  unfold kill
  cases t.find (fun p => p.pid = pid) with
  | none => rfl
  | some j => rfl

end Ptable

/-! ## What a step does -/

namespace Procs

/-- What a step that neither starts nor ends a process does to slot `j`. -/
structure Stirred (s s' : Procs) (j : Fin NPROC) : Prop where
  pid : (s'.ptable.proc j).pid = (s.ptable.proc j).pid
  parent : (s'.ptable.proc j).parent = (s.ptable.proc j).parent
  state : (s'.ptable.proc j).state = (s.ptable.proc j).state ∨
    (s.ptable.proc j).state.Started ∧ (s'.ptable.proc j).state.Started
  child : s'.pc j = s.pc j ∨ (s.pc j).child = none ∧ (s'.pc j).child = none
  /-- It may have gone to sleep in `wait`, but then it has no zombie child. -/
  waits : s'.pc j = .waiting → (s'.ptable.proc j).state = .SLEEPING →
    s.pc j = .waiting ∧ (s.ptable.proc j).state = .SLEEPING ∧
        (s'.ptable.proc j).chan = (s.ptable.proc j).chan ∨
      (s'.ptable.proc j).chan = some (.proc j) ∧
        ∀ i, (s.ptable.proc i).parent = some j → (s.ptable.proc i).state ≠ .ZOMBIE

def Quiet : ProcEvent × Option ℤ → Prop
  | (.act _ .allocproc, r) => r = some (-1)
  | (.act _ .wait, r) => r = none ∨ r = some (-1)
  | (.act _ (.sleep _), r) | (.act _ .resume, r) | (.act _ .yield, r) => r = none
  | (.dispatch _, r) | (.wakeup _, r) => r = none
  | _ => False

/-- Everything that a step can do. -/
inductive Stepped (s : Procs) : ProcEvent × Option ℤ → Procs → Prop
  | stir (e : ProcEvent × Option ℤ) (s' : Procs) (hquiet : Quiet e)
    (hinit : s'.ptable.initproc = s.ptable.initproc)
    (hnext : s'.ptable.nextpid = s.ptable.nextpid) (hslot : ∀ j, Stirred s s' j)
    (hkilled : ∀ j, (s'.ptable.proc j).killed = (s.ptable.proc j).killed) : Stepped s e s'
  | kill (cur : Fin NPROC) (pid : ℤ) :
    Stepped s (.act cur (.kill pid), some (s.ptable.kill pid).1)
      { s with ptable := (s.ptable.kill pid).2 }
  | take (cur np : Fin NPROC) (hrun : (s.ptable.proc cur).state = .RUNNING)
    (hpc : s.pc cur = .user) (hnp : (s.ptable.proc np).state = .UNUSED) :
    Stepped s (.act cur .allocproc, none)
      (s.put { s.ptable.setProc np { s.ptable.proc np with
          state := .EMBRYO, pid := s.ptable.nextpid, container_id := -1 } with
        nextpid := Ptable.succ32 s.ptable.nextpid } cur (.allocated np))
  | stack (cur np : Fin NPROC) (hpc : s.pc cur = .allocated np) :
    Stepped s (.act cur (.kalloc true), none) (s.put s.ptable cur (.copying np))
  | drop (cur np : Fin NPROC) (a : Act) (ha : a = .kalloc false ∨ a = .copyuvm false)
    (hpc : (s.pc cur).child = some np) :
    Stepped s (.act cur a, some (-1)) (s.put (s.ptable.setState np .UNUSED) cur .user)
  | adopt (cur np : Fin NPROC) (hpc : s.pc cur = .copying np) :
    Stepped s (.act cur (.copyuvm true), none)
      (s.put (s.ptable.setProc np { s.ptable.proc np with parent := some cur }) cur (.ready np))
  | start (cur np : Fin NPROC) (hpc : s.pc cur = .ready np) :
    Stepped s (.act cur .runnable, some (s.ptable.proc np).pid)
      ((s.put (s.ptable.setState np .RUNNABLE) np .user).put (s.ptable.setState np .RUNNABLE) cur
        .user)
  | exit (cur : Fin NPROC) (t : Ptable) (hrun : (s.ptable.proc cur).state = .RUNNING)
    (hpc : s.pc cur = .user) (hexit : s.ptable.Exited cur t) :
    Stepped s (.act cur .exit, none) { s with ptable := t }
  | reap (cur i : Fin NPROC) (hrun : (s.ptable.proc cur).state = .RUNNING)
    (hpc : s.pc cur = .user ∨ s.pc cur = .waiting)
    (hpar : (s.ptable.proc i).parent = some cur) (hz : (s.ptable.proc i).state = .ZOMBIE) :
    Stepped s (.act cur .wait, some (s.ptable.proc i).pid)
      (s.put ((s.ptable.clearChan cur).setProc i
        { s.ptable.proc i with pid := 0, parent := none, killed := false, state := .UNUSED })
        cur .user)

@[simp] theorem put_ptable (s : Procs) (t : Ptable) (cur : Fin NPROC) (pc : Pc) :
    (s.put t cur pc).ptable = t := rfl

theorem put_pc (s : Procs) (t : Ptable) (cur : Fin NPROC) (pc : Pc) (c : Fin NPROC) :
    (s.put t cur pc).pc c = if c = cur then pc else s.pc c := by
  simp [put, update_apply]

theorem Stirred.of_eq {s s' : Procs} {j : Fin NPROC} (hproc : s'.ptable.proc j = s.ptable.proc j)
    (hpc : s'.pc j = s.pc j) : Stirred s s' j := by
  refine ⟨by rw [hproc], by rw [hproc], .inl (by rw [hproc]), .inl hpc, fun hw hs => ?_⟩
  exact .inl ⟨hpc ▸ hw, hproc ▸ hs, by rw [hproc]⟩

theorem Stirred.of_woken {s s' : Procs} {j : Fin NPROC}
    (hwoken : (s.ptable.proc j).Woken (s'.ptable.proc j))
    (hparent : (s'.ptable.proc j).parent = (s.ptable.proc j).parent) (hpc : s'.pc j = s.pc j) :
    Stirred s s' j :=
  ⟨hwoken.pid, hparent, hwoken.started, .inl hpc,
    fun hw hs => .inl ⟨hpc ▸ hw, hwoken.sleeping hs, hwoken.chan⟩⟩

theorem kill_stirred (s : Procs) (pid : ℤ) (j : Fin NPROC) :
    Stirred s { s with ptable := (s.ptable.kill pid).2 } j :=
  .of_woken (Ptable.kill_woken pid _ j) (Ptable.kill_parent pid _ j) rfl

theorem Stirred.of_running {s s' : Procs} {j : Fin NPROC}
    (hrun : (s.ptable.proc j).state = .RUNNING)
    (hpid : (s'.ptable.proc j).pid = (s.ptable.proc j).pid)
    (hpar : (s'.ptable.proc j).parent = (s.ptable.proc j).parent)
    (hstarted : (s'.ptable.proc j).state.Started)
    (hchild : s'.pc j = s.pc j ∨ (s.pc j).child = none ∧ (s'.pc j).child = none)
    (hwaits : s'.pc j = .waiting → (s'.ptable.proc j).state = .SLEEPING →
      (s'.ptable.proc j).chan = some (.proc j) ∧
        ∀ i, (s.ptable.proc i).parent = some j → (s.ptable.proc i).state ≠ .ZOMBIE) :
    Stirred s s' j :=
  ⟨hpid, hpar, .inr ⟨.inr (.inr hrun), hstarted⟩, hchild, fun hw hs => .inr (hwaits hw hs)⟩

theorem Stepped.of_running {s s' : Procs} {e : ProcEvent × Option ℤ} (cur : Fin NPROC)
    (hquiet : Quiet e) (hinit : s'.ptable.initproc = s.ptable.initproc)
    (hnext : s'.ptable.nextpid = s.ptable.nextpid)
    (hother : ∀ j, j ≠ cur → s'.ptable.proc j = s.ptable.proc j ∧ s'.pc j = s.pc j)
    (hcur : Stirred s s' cur) (hkilled : (s'.ptable.proc cur).killed = (s.ptable.proc cur).killed) :
    Stepped s e s' := by
  refine .stir e s' hquiet hinit hnext (fun j => ?_) fun j => ?_
  · by_cases hj : j = cur
    · rw [hj]
      exact hcur
    · exact .of_eq (hother j hj).1 (hother j hj).2
  · by_cases hj : j = cur
    · rw [hj]
      exact hkilled
    · rw [(hother j hj).1]

theorem stepped_of_step {s s' : Procs} {e : ProcEvent × Option ℤ} (hs : s.step e s') :
    Stepped s e s' := by
  obtain ⟨e, r⟩ := e
  cases e with
  | act cur a =>
    simp only [step, next, Option.ite_none_right_eq_some] at hs
    obtain ⟨hrun, hs⟩ := hs
    cases a with
    | allocproc =>
      simp only [exec] at hs
      split at hs
      · rename_i hpc
        split at hs
        · cases hs
          exact .stir _ _ rfl rfl rfl (fun j => .of_eq rfl rfl) fun _ => rfl
        · rename_i np t htake
          cases hs
          obtain ⟨hnp, rfl⟩ := Ptable.takeSlot_spec htake
          exact .take cur np hrun hpc hnp
      · cases hs
    | kalloc ok =>
      simp only [exec] at hs
      split at hs
      · rename_i np hpc
        cases ok with
        | true =>
          cases hs
          exact .stack cur np hpc
        | false =>
          cases hs
          exact .drop cur np _ (.inl rfl) (by rw [hpc]; rfl)
      · cases hs
    | copyuvm ok =>
      simp only [exec] at hs
      split at hs
      · rename_i np hpc
        cases ok with
        | true =>
          cases hs
          exact .adopt cur np hpc
        | false =>
          cases hs
          exact .drop cur np _ (.inr rfl) (by rw [hpc]; rfl)
      · cases hs
    | runnable =>
      simp only [exec] at hs
      split at hs
      · rename_i np hpc
        cases hs
        exact .start cur np hpc
      · cases hs
    | exit =>
      simp only [exec] at hs
      split at hs
      · rename_i hpc
        obtain ⟨t, ht, heq⟩ := Option.map_eq_some_iff.1 hs
        cases heq
        exact .exit cur t hrun hpc (Ptable.exit_exited ht)
      · cases hs
    | wait =>
      simp only [exec, Option.ite_none_right_eq_some] at hs
      obtain ⟨hpc, hs⟩ := hs
      have hchild : (s.pc cur).child = none := by
        rcases hpc with hpc | hpc <;> rw [hpc] <;> rfl
      rcases Ptable.wait_cases cur (s.ptable.clearChan cur) with
        ⟨i, hpar, hz, hwait⟩ | hwait | ⟨hnone, hwait⟩
      · rw [hwait] at hs
        cases hs
        have hi : i ≠ cur := by
          rintro rfl
          rw [Ptable.clearChan_self] at hz
          exact absurd (hrun.symm.trans hz) (by decide)
        rw [Ptable.clearChan_of_ne _ hi] at hpar hz ⊢
        exact .reap cur i hrun hpc hpar hz
      · rw [hwait] at hs
        cases hs
        refine .of_running cur (.inr rfl) rfl rfl (fun j hj => ⟨?_, ?_⟩) ?_ ?_
        · exact Ptable.clearChan_of_ne _ hj
        · exact update_of_ne hj ..
        · refine .of_running hrun ?_ ?_ ?_ ?_ ?_
          · simp [put]
          · simp [put]
          · simp [put, ProcState.Started, hrun]
          · exact .inr ⟨hchild, by simp [put, Pc.child]⟩
          · simp [put]
        · simp [put]
      · rw [hwait] at hs
        cases hs
        refine .of_running cur (.inl rfl) rfl rfl (fun j hj => ⟨?_, ?_⟩) ?_ ?_
        · simp [put, Ptable.sleep, Ptable.setProc_of_ne _ _ hj, Ptable.clearChan_of_ne _ hj]
        · exact update_of_ne hj ..
        · refine .of_running hrun ?_ ?_ ?_ ?_ fun _ _ => ⟨?_, fun i hpar hz => ?_⟩
          · simp [put, Ptable.sleep]
          · simp [put, Ptable.sleep]
          · simp [put, Ptable.sleep, ProcState.Started]
          · exact .inr ⟨hchild, by simp [put, Pc.child]⟩
          · simp [put, Ptable.sleep]
          · have hi : i ≠ cur := by
              rintro rfl
              exact absurd (hrun.symm.trans hz) (by decide)
            refine hnone i ?_ ?_
            · rw [Ptable.clearChan_of_ne _ hi, hpar]
            · rw [Ptable.clearChan_of_ne _ hi, hz]
        · simp [put, Ptable.sleep]
    | kill pid =>
      simp only [exec] at hs
      split at hs
      · cases hs
        exact .kill cur pid
      · cases hs
    | sleep chan =>
      simp only [exec] at hs
      split at hs
      · rename_i hpc
        cases hs
        refine .of_running cur rfl rfl rfl (fun j hj => ⟨?_, ?_⟩) ?_ ?_
        · exact Ptable.setProc_of_ne _ _ hj
        · exact update_of_ne hj ..
        · refine .of_running hrun ?_ ?_ ?_ ?_ ?_
          · simp [put, Ptable.sleep]
          · simp [put, Ptable.sleep]
          · simp [put, Ptable.sleep, ProcState.Started]
          · simp [put, hpc, Pc.child]
          · simp [put]
        · simp [put, Ptable.sleep]
      · cases hs
    | resume =>
      simp only [exec] at hs
      split at hs
      · rename_i hpc
        cases hs
        refine .of_running cur rfl rfl rfl (fun j hj => ⟨?_, ?_⟩) ?_ ?_
        · exact Ptable.clearChan_of_ne _ hj
        · exact update_of_ne hj ..
        · refine .of_running hrun ?_ ?_ ?_ ?_ ?_
          · simp [put]
          · simp [put]
          · simp [put, ProcState.Started, hrun]
          · simp [put, hpc, Pc.child]
          · simp [put]
        · simp [put]
      · cases hs
    | yield =>
      cases hs
      refine .of_running cur rfl rfl rfl (fun j hj => ⟨?_, rfl⟩) ?_ ?_
      · exact Ptable.setState_of_ne _ _ hj
      · refine .of_running hrun ?_ ?_ ?_ (.inl rfl) ?_
        · simp
        · simp
        · simp [ProcState.Started]
        · simp
      · simp
  | dispatch i =>
    simp only [step, next, Option.ite_none_right_eq_some] at hs
    obtain ⟨hst, hs⟩ := hs
    cases hs
    refine .of_running i rfl rfl rfl (fun j hj => ⟨?_, rfl⟩) ?_ ?_
    · exact Ptable.setState_of_ne _ _ hj
    · refine ⟨by simp, by simp, .inr ⟨.inr (.inl hst), by simp [ProcState.Started]⟩, .inl rfl, ?_⟩
      simp
    · simp
  | wakeup chan =>
    cases hs
    refine .stir _ _ rfl rfl rfl (fun j => ?_) fun j => (Ptable.wakeup1_parent _ chan j).2
    exact .of_woken (s.ptable.wakeup1_woken chan j) (Ptable.wakeup1_parent _ chan j).1 rfl

/-! ## The processes in `fork` -/

/-- The slot that a process in `fork` has taken is its own. Init has not exited, has no parent, and
no process is its own parent. -/
structure Forking (s : Procs) : Prop where
  init : (s.ptable.proc s.ptable.initproc).state.Started
  orphan : (s.ptable.proc s.ptable.initproc).parent = none
  ne_self : ∀ i, (s.ptable.proc i).parent ≠ some i
  embryo : ∀ c np, (s.pc c).child = some np → (s.ptable.proc np).state = .EMBRYO
  started : ∀ c np, (s.pc c).child = some np → (s.ptable.proc c).state.Started
  unique : ∀ c c' np, (s.pc c).child = some np → (s.pc c').child = some np → c = c'
  ready : ∀ c np, s.pc c = .ready np → (s.ptable.proc np).parent = some c

theorem boot_forking : boot.Forking := by
  refine ⟨by decide, by decide, by decide, ?_, ?_, ?_, ?_⟩
  · rintro c np ⟨⟩
  · rintro c np ⟨⟩
  · rintro c c' np ⟨⟩
  · rintro c np ⟨⟩

namespace Forking

variable {s s' : Procs}

theorem child_ne {c np j : Fin NPROC} (h : Forking s) (hc : (s.pc c).child = some np)
    (hj : (s.ptable.proc j).state.Started) : j ≠ np := by
  rintro rfl
  rw [h.embryo c j hc] at hj
  exact absurd hj (by decide)

theorem pc_eq_of_stirred (hslot : ∀ j, Stirred s s' j) {c np : Fin NPROC}
    (hc : (s'.pc c).child = some np) : s'.pc c = s.pc c := by
  rcases (hslot c).child with heq | ⟨-, hnone⟩
  · exact heq
  · rw [hnone] at hc
    cases hc

theorem of_stirred (h : Forking s) (hinit : s'.ptable.initproc = s.ptable.initproc)
    (hslot : ∀ j, Stirred s s' j) : Forking s' := by
  have hstarted : ∀ j, (s.ptable.proc j).state.Started → (s'.ptable.proc j).state.Started := by
    intro j hj
    rcases (hslot j).state with heq | ⟨-, hj'⟩
    · rw [heq]
      exact hj
    · exact hj'
  refine ⟨?_, ?_, fun i => ?_, fun c np hc => ?_, fun c np hc => ?_, fun c c' np hc hc' => ?_,
    fun c np hc => ?_⟩
  · rw [hinit]
    exact hstarted _ h.init
  · rw [hinit, (hslot _).parent, h.orphan]
  · rw [(hslot i).parent]
    exact h.ne_self i
  · rw [pc_eq_of_stirred hslot hc] at hc
    rcases (hslot np).state with heq | ⟨hnp, -⟩
    · rw [heq, h.embryo c np hc]
    · exact absurd rfl (h.child_ne hc hnp)
  · rw [pc_eq_of_stirred hslot hc] at hc
    exact hstarted c (h.started c np hc)
  · rw [pc_eq_of_stirred hslot hc] at hc
    rw [pc_eq_of_stirred hslot hc'] at hc'
    exact h.unique c c' np hc hc'
  · rw [pc_eq_of_stirred hslot (by rw [hc]; rfl)] at hc
    rw [(hslot np).parent, h.ready c np hc]

theorem of_exited {cur : Fin NPROC} {t : Ptable} (h : Forking s)
    (hrun : (s.ptable.proc cur).state = .RUNNING) (hpc : s.pc cur = .user)
    (hexit : s.ptable.Exited cur t) : Forking { s with ptable := t } := by
  have hcur : ∀ c np, (s.pc c).child = some np → c ≠ cur := by
    rintro c np hc rfl
    rw [hpc] at hc
    cases hc
  have hstarted : ∀ j, j ≠ cur → (s.ptable.proc j).state.Started → (t.proc j).state.Started := by
    intro j hj hst
    rcases (hexit.woken j hj).started with heq | ⟨-, hj'⟩
    · rw [heq]
      exact hst
    · exact hj'
  refine ⟨?_, ?_, fun i => ?_, fun c np hc => ?_, fun c np hc => ?_, h.unique, fun c np hc => ?_⟩
  · rw [hexit.initproc]
    exact hstarted _ (Ne.symm hexit.ne_init) h.init
  · rw [hexit.initproc, hexit.parent, h.orphan]
    rfl
  · rw [hexit.parent]
    split
    · -- Init has no parent, so that it does not become its own.
      rintro heq
      rename_i hpar
      rw [← Option.some.inj heq, h.orphan] at hpar
      cases hpar
    · exact h.ne_self i
  · have hne : np ≠ cur := (h.child_ne hc (.inr (.inr hrun))).symm
    rcases (hexit.woken np hne).started with heq | ⟨hnp, -⟩
    · exact heq.trans (h.embryo c np hc)
    · exact absurd rfl (h.child_ne hc hnp)
  · exact hstarted c (hcur c np hc) (h.started c np hc)
  · rw [hexit.parent, h.ready c np hc, if_neg]
    exact fun heq => hcur c np (by rw [hc]; rfl) (Option.some.inj heq)

theorem of_put (h : Forking s) (cur np : Fin NPROC)
    (hinit : s'.ptable.initproc = s.ptable.initproc)
    (hnp : ¬(s.ptable.proc np).state.Started) (hcur : (s.ptable.proc cur).state.Started)
    (hfree : ∀ c, (s.pc c).child = some np → c = cur)
    (hslot : ∀ j, j ≠ np → (s'.ptable.proc j).state = (s.ptable.proc j).state ∧
      (s'.ptable.proc j).parent = (s.ptable.proc j).parent)
    (hself : (s'.ptable.proc np).parent ≠ some np)
    (hpc : ∀ c, c ≠ cur → s'.pc c = s.pc c ∨ (s'.pc c).child = none)
    (hchild : ∀ m, (s'.pc cur).child = some m → m = np ∧ (s'.ptable.proc np).state = .EMBRYO)
    (hready : ∀ m, s'.pc cur = .ready m → (s'.ptable.proc np).parent = some cur) :
    Forking s' := by
  have hne : ∀ j, (s.ptable.proc j).state.Started → j ≠ np := by
    rintro j hj rfl
    exact hnp hj
  -- The other processes in `fork` are where they were, and have other slots.
  have hother : ∀ c m, c ≠ cur → (s'.pc c).child = some m → s'.pc c = s.pc c ∧ m ≠ np := by
    intro c m hc hm
    rcases hpc c hc with heq | hnone
    · refine ⟨heq, ?_⟩
      rintro rfl
      exact hc (hfree c (heq ▸ hm))
    · rw [hnone] at hm
      cases hm
  refine ⟨?_, ?_, fun i => ?_, fun c m hm => ?_, fun c m hm => ?_, fun c c' m hm hm' => ?_,
    fun c m hm => ?_⟩
  · rw [hinit, (hslot _ (hne _ h.init)).1]
    exact h.init
  · rw [hinit, (hslot _ (hne _ h.init)).2]
    exact h.orphan
  · by_cases hi : i = np
    · rw [hi]
      exact hself
    · rw [(hslot i hi).2]
      exact h.ne_self i
  · by_cases hc : c = cur
    · obtain ⟨rfl, hembryo⟩ := hchild m (hc ▸ hm)
      exact hembryo
    · obtain ⟨heq, hm'⟩ := hother c m hc hm
      rw [(hslot m hm').1]
      exact h.embryo c m (heq ▸ hm)
  · by_cases hc : c = cur
    · rw [hc, (hslot cur (hne cur hcur)).1]
      exact hcur
    · have hst := h.started c m ((hother c m hc hm).1 ▸ hm)
      rw [(hslot c (hne c hst)).1]
      exact hst
  · by_cases hc : c = cur <;> by_cases hc' : c' = cur
    · rw [hc, hc']
    · exact absurd (hchild m (hc ▸ hm)).1 (hother c' m hc' hm').2
    · exact absurd (hchild m (hc' ▸ hm')).1 (hother c m hc hm).2
    · exact h.unique c c' m ((hother c m hc hm).1 ▸ hm) ((hother c' m hc' hm').1 ▸ hm')
  · have hm' : (s'.pc c).child = some m := by
      rw [hm]
      rfl
    by_cases hc : c = cur
    · obtain ⟨rfl, -⟩ := hchild m (hc ▸ hm')
      rw [hc]
      exact hready m (hc ▸ hm)
    · obtain ⟨heq, hnp'⟩ := hother c m hc hm'
      rw [(hslot m hnp').2]
      exact h.ready c m (heq ▸ hm)

theorem owner {c np : Fin NPROC} (h : Forking s) (hc : (s.pc c).child = some np) :
    ¬(s.ptable.proc np).state.Started ∧ (s.ptable.proc c).state.Started ∧ c ≠ np ∧
      ∀ c', (s.pc c').child = some np → c' = c := by
  have hst := h.started c np hc
  refine ⟨?_, hst, h.child_ne hc hst, fun c' hc' => h.unique c' c np hc' hc⟩
  rw [h.embryo c np hc]
  decide

theorem step {e : ProcEvent × Option ℤ} (h : Forking s) (hs : Stepped s e s') : Forking s' := by
  cases hs with
  | stir e s' hquiet hinit hnext hslot hkilled => exact h.of_stirred hinit hslot
  | kill cur pid => exact h.of_stirred (Ptable.kill_initproc pid _) (kill_stirred s pid)
  | exit cur t hrun hpc hexit => exact h.of_exited hrun hpc hexit
  | take cur np hrun hpc hnp =>
    refine h.of_put cur np rfl ?_ (.inr (.inr hrun)) (fun c hc => ?_)
      (fun j hj => ?_) ?_ (fun c hc => ?_) (fun m hm => ?_) fun m hm => ?_
    · rw [hnp]
      decide
    · exact absurd ((h.embryo c np hc).symm.trans hnp) (by decide)
    · simp [Ptable.setProc_of_ne _ _ hj]
    · simpa using h.ne_self np
    · exact .inl (by simp [put_pc, hc])
    · simpa [put_pc, Pc.child, eq_comm] using hm
    · simp [put_pc] at hm
  | stack cur np hpc =>
    have hchild : (s.pc cur).child = some np := by
      rw [hpc]
      rfl
    obtain ⟨hnp, hcur, hne, hfree⟩ := h.owner hchild
    refine h.of_put cur np rfl hnp hcur hfree (fun j hj => ⟨rfl, rfl⟩)
      (h.ne_self np) (fun c hc => ?_) (fun m hm => ?_) fun m hm => ?_
    · exact .inl (by simp [put_pc, hc])
    · refine ⟨by simpa [put_pc, Pc.child, eq_comm] using hm, h.embryo cur np hchild⟩
    · simp [put_pc] at hm
  | drop cur np a ha hpc =>
    obtain ⟨hnp, hcur, hne, hfree⟩ := h.owner hpc
    refine h.of_put cur np rfl hnp hcur hfree (fun j hj => ?_) ?_
      (fun c hc => ?_) (fun m hm => ?_) fun m hm => ?_
    · simp [Ptable.setState_of_ne _ _ hj]
    · simpa using h.ne_self np
    · exact .inl (by simp [put_pc, hc])
    · simp [put_pc, Pc.child] at hm
    · simp [put_pc] at hm
  | adopt cur np hpc =>
    have hchild : (s.pc cur).child = some np := by
      rw [hpc]
      rfl
    obtain ⟨hnp, hcur, hne, hfree⟩ := h.owner hchild
    refine h.of_put cur np rfl hnp hcur hfree (fun j hj => ?_) ?_
      (fun c hc => ?_) (fun m hm => ?_) fun m hm => ?_
    · simp [Ptable.setProc_of_ne _ _ hj]
    · simpa using hne
    · exact .inl (by simp [put_pc, hc])
    · refine ⟨by simpa [put_pc, Pc.child, eq_comm] using hm, ?_⟩
      simpa using h.embryo cur np hchild
    · simp
  | start cur np hpc =>
    have hchild : (s.pc cur).child = some np := by
      rw [hpc]
      rfl
    obtain ⟨hnp, hcur, hne, hfree⟩ := h.owner hchild
    refine h.of_put cur np rfl hnp hcur hfree (fun j hj => ?_) ?_
      (fun c hc => ?_) (fun m hm => ?_) fun m hm => ?_
    · simp [Ptable.setState_of_ne _ _ hj]
    · simpa using h.ne_self np
    · by_cases hcn : c = np
      · exact .inr (by simp [put_pc, hcn, Pc.child])
      · exact .inl (by simp [put_pc, hc, hcn])
    · simp [put_pc, Pc.child] at hm
    · simp [put_pc] at hm
  | reap cur i hrun hpc hpar hz =>
    refine h.of_put cur i rfl ?_ (.inr (.inr hrun)) (fun c hc => ?_)
      (fun j hj => ?_) ?_ (fun c hc => ?_) (fun m hm => ?_) fun m hm => ?_
    · rw [hz]
      decide
    · exact absurd ((h.embryo c i hc).symm.trans hz) (by decide)
    · simp [Ptable.setProc_of_ne _ _ hj]
    · simp
    · exact .inl (by simp [put_pc, hc])
    · simp [put_pc, Pc.child] at hm
    · simp [put_pc] at hm

end Forking

theorem forking_of_isRun {π : List ((ProcEvent × Option ℤ) × Procs)} (h : IsRun step boot π) :
    (last boot π).Forking :=
  h.invariant boot_forking fun _ _ _ hs hstep => hs.step (stepped_of_step hstep)

end Procs

end Xv6
