import Xv6.Log.Operations

/-!
# Group commit

The operations that run together commit together: the last of them to end starts the commit, and
`begin_op` lets nobody in before it is over. So a commit has the log for itself, and it writes what
the operations since the last commit have logged, all of which have ended. When it is over the log
is empty, and nobody who waits for it is left asleep.

The results hold on every run in which `log_write` is called in operations, whatever these log. A
`log_write` that panics, or that writes outside `log.lh.block`, stops the kernel. A process outside of
operations passes the tests of `log_write` if there is an operation of another one, and can then
change the log after that operation has ended.
-/

namespace Xv6

open Function Run Prog

/-! ## What a commit writes -/

theorem LogHeader.lt_of_wr {lh : LogHeader} {b : ℕ} {block : Fin LOGSIZE → ℕ}
    (h : CArray.wr lh.block lh.n b = some block) : lh.n < LOGSIZE := by
  by_contra hge
  rw [CArray.wr, CArray.upd, dif_neg (by omega)] at h
  cases h

theorem LogHeader.n_le_of_record {lh lh' : LogHeader} {b : ℕ} (h : lh.record b = some lh')
    (hn : lh.n ≤ LOGSIZE) : lh'.n ≤ LOGSIZE := by
  unfold record at h
  split at h
  · cases h
    exact hn
  · obtain ⟨block, hwr, rfl⟩ := Option.map_eq_some_iff.1 h
    exact lt_of_wr hwr

theorem LogHeader.names_record {lh lh' : LogHeader} {b : ℕ} (h : lh.record b = some lh') (a : ℕ) :
    lh'.Names a ↔ a = b ∨ lh.Names a := by
  unfold record at h
  split at h
  · rename_i i hfind
    have hi : i < lh.n ∧ lh.block i = b := by simpa using List.find?_some hfind
    cases h
    have hsame : update lh.block i b = lh.block := by
      rw [← hi.2, update_eq_self]
    rw [hsame]
    constructor
    · exact fun ha => .inr ha
    · rintro (rfl | ha)
      · exact ⟨i, hi⟩
      · exact ha
  · obtain ⟨block, hwr, rfl⟩ := Option.map_eq_some_iff.1 h
    have hn := lt_of_wr hwr
    rw [show CArray.wr lh.block lh.n b = some (update lh.block ⟨lh.n, hn⟩ b) from
      CArray.wr_natCast lh.block ⟨lh.n, hn⟩ b] at hwr
    cases hwr
    constructor
    · rintro ⟨i, hi, rfl⟩
      by_cases hin : i = ⟨lh.n, hn⟩
      · rw [hin]
        exact .inl (update_self ..)
      · -- The other entries were there before.
        have hne : (i : ℕ) ≠ lh.n := fun hval => hin (Fin.ext hval)
        have hlt : (i : ℕ) < lh.n := Nat.lt_of_le_of_ne (Nat.le_of_lt_succ hi) hne
        exact .inr ⟨i, hlt, (update_of_ne hin ..).symm⟩
    · rintro (rfl | ⟨i, hi, rfl⟩)
      · exact ⟨⟨lh.n, hn⟩, Nat.lt_succ_self _, update_self ..⟩
      · have hne : i ≠ ⟨lh.n, hn⟩ := fun h => absurd (congrArg Fin.val h) (Nat.ne_of_lt hi)
        exact ⟨i, Nat.lt_succ_of_lt hi, update_of_ne hne ..⟩

namespace Storage

variable {s t : Storage} {B : ℕ → Prop}

/-- From `s` to `t` the blocks in `B` have been written, and `log` has not changed. -/
structure Wrote (s : Storage) (B : ℕ → Prop) (t : Storage) : Prop where
  log : t.log = s.log
  writes : ∃ l, t.writes = l ++ s.writes ∧ ∀ b, b ∈ l ↔ B b

theorem Wrote.lowers (h : Wrote s B t) : s.Lowers t := by
  refine ⟨?_, ?_, ?_, ?_⟩
  · rw [h.log]
  · rw [h.log]
  · rw [h.log]
  · rw [h.log]

theorem Wrote.congr {B' : ℕ → Prop} (h : Wrote s B t) (hB : ∀ b, B b ↔ B' b) : Wrote s B' t := by
  obtain ⟨hlog, l, hl, hmem⟩ := h
  exact ⟨hlog, l, hl, fun b => (hmem b).trans (hB b)⟩

theorem Wrote.written (h : Wrote s B t) (a : ℕ) (data : Block) :
    Wrote s (fun b => B b ∨ b = a) (t.written a data) := by
  obtain ⟨hlog, l, hl, hmem⟩ := h
  refine ⟨hlog, a :: l, congrArg (List.cons a) hl, fun b => ?_⟩
  rw [List.mem_cons, hmem, or_comm]

theorem writeLog_wrote (h : Wrote s B t) (hn : s.log.lh.n ≤ LOGSIZE) :
    writeLog.Safe s.Lowers
      (fun _ => Wrote s fun b => B b ∨ ∃ j < s.log.lh.n, b = s.log.start + j + 1) t := by
  refine Safe.get_bind h.lowers rfl ?_
  rw [h.log]
  refine Safe.forRange (I := fun i => Wrote s fun b => B b ∨ ∃ j < i, b = s.log.start + j + 1)
    (Nat.zero_add _) (fun _ _ hw => hw.lowers) ?_ (h.congr fun b => by simp)
  intro i u _ hi hu
  have hnext : ∀ data, Wrote s (fun b => B b ∨ ∃ j < i + 1, b = s.log.start + j + 1)
      (u.written (s.log.start + i + 1) data) := by
    refine fun data => (hu.written _ data).congr fun b => ?_
    rw [or_assoc]
    refine or_congr_right ⟨?_, ?_⟩
    · rintro (⟨j, hj, rfl⟩ | rfl)
      · exact ⟨j, by omega, rfl⟩
      · exact ⟨i, by omega, rfl⟩
    · rintro ⟨j, hj, rfl⟩
      rcases Nat.lt_succ_iff_lt_or_eq.1 hj with hlt | rfl
      · exact .inl ⟨j, hlt, rfl⟩
      · exact .inr rfl
  have hrd : CArray.rd u.log.lh.block (i : ℤ) = some (s.log.lh.block ⟨i, by omega⟩) := by
    rw [hu.log]
    exact rd_block (by omega)
  refine Safe.get_bind hu.lowers rfl (Safe.get_bind hu.lowers hrd
    (Safe.get_bind hu.lowers rfl ?_))
  exact Safe.set hu.lowers rfl (hnext _).lowers (hnext _)

theorem installTrans_wrote (h : Wrote s B t) (hn : s.log.lh.n ≤ LOGSIZE) :
    installTrans.Safe s.Lowers (fun _ => Wrote s fun b => B b ∨ s.log.lh.Names b) t := by
  refine Safe.get_bind h.lowers rfl ?_
  rw [h.log]
  refine (Safe.forRange (I := fun i => Wrote s fun b => B b ∨ ∃ j : Fin LOGSIZE, j < i ∧
    s.log.lh.block j = b) (Nat.zero_add _) (fun _ _ hw => hw.lowers) ?_
    (h.congr fun b => by simp)).mono (fun _ hC => hC) fun _ _ hw => hw
  intro i u _ hi hu
  have hnext : ∀ data, Wrote s (fun b => B b ∨ ∃ j : Fin LOGSIZE, (j : ℕ) < i + 1 ∧
      s.log.lh.block j = b) (u.written (s.log.lh.block ⟨i, by omega⟩) data) := by
    refine fun data => (hu.written _ data).congr fun b => ?_
    rw [or_assoc]
    refine or_congr_right ⟨?_, ?_⟩
    · rintro (⟨j, hj, rfl⟩ | rfl)
      · exact ⟨j, by omega, rfl⟩
      · exact ⟨⟨i, by omega⟩, Nat.lt_succ_self i, rfl⟩
    · rintro ⟨j, hj, rfl⟩
      rcases Nat.lt_succ_iff_lt_or_eq.1 hj with hlt | heq
      · exact .inl ⟨j, hlt, rfl⟩
      · exact .inr (congrArg _ (Fin.ext heq))
  have hrd : CArray.rd u.log.lh.block (i : ℤ) = some (s.log.lh.block ⟨i, by omega⟩) := by
    rw [hu.log]
    exact rd_block (by omega)
  refine Safe.get_bind hu.lowers rfl (Safe.get_bind hu.lowers hrd
    (Safe.get_bind hu.lowers rfl ?_))
  exact Safe.set hu.lowers rfl (hnext _).lowers (hnext _)

def CommitWrites (s : Storage) (b : ℕ) : Prop :=
  0 < s.log.lh.n ∧ b = s.log.start ∨ (∃ j < s.log.lh.n, b = s.log.start + j + 1) ∨
    s.log.lh.Names b

/-- After `commit`, started in `s`. -/
structure Committed (s t : Storage) : Prop where
  empty : t.log.lh.n = 0
  writes : ∃ l, t.writes = l ++ s.writes ∧ ∀ b, b ∈ l ↔ s.CommitWrites b

theorem commit_committed (hn : s.log.lh.n ≤ LOGSIZE) :
    commit.Safe s.Lowers (fun _ => Committed s) s := by
  have h0 : Wrote s (fun _ => False) s := ⟨rfl, [], rfl, fun b => by simp⟩
  refine Safe.get_bind h0.lowers rfl ?_
  split
  · rename_i hpos
    refine Safe.bind ((writeLog_wrote h0 hn).mono (fun _ hC => hC) fun _ t1 h1 => ?_)
    -- The header is written with its entries, and again when it is empty.
    have h2 := h1.written s.log.start (s.log.lh.store (t1.view s.log.start))
    refine Safe.bind (writeHead_safe h1.lowers (by rw [h1.log]; exact hn) ?_ ?_)
    · rw [h1.log]
      exact h2.lowers
    rw [h1.log]
    refine Safe.bind ((installTrans_wrote h2 hn).mono (fun _ hC => hC) fun _ t3 h3 => ?_)
    have hlow3 := h3.lowers
    obtain ⟨hlog, l, hl, hmem⟩ := h3
    have hlow : s.Lowers (t3.setHeader { t3.log.lh with n := 0 }) :=
      ⟨hlow3.size, hlow3.outstanding, hlow3.committing, Nat.zero_le _⟩
    refine Safe.bind (Safe.set hlow3 rfl hlow ?_)
    refine writeHead_safe hlow (Nat.zero_le _) ⟨hlow.1, hlow.2, hlow.3, hlow.4⟩ ⟨rfl, ?_⟩
    refine ⟨t3.log.start :: l, congrArg (List.cons _) hl, fun b => ?_⟩
    rw [List.mem_cons, hmem, hlog]
    constructor
    · rintro (rfl | ((h | h) | rfl) | h)
      · exact .inl ⟨hpos, rfl⟩
      · exact h.elim
      · exact .inr (.inl h)
      · exact .inl ⟨hpos, rfl⟩
      · exact .inr (.inr h)
    · rintro (⟨-, rfl⟩ | h | h)
      · exact .inl rfl
      · exact .inr (.inl (.inl (.inr h)))
      · exact .inr (.inr h)
  · rename_i hpos
    refine ⟨h0.lowers, Nat.eq_zero_of_not_pos hpos, [], rfl, fun b => ?_⟩
    constructor
    · intro hb
      cases hb
    · rintro (⟨h, -⟩ | ⟨j, hj, -⟩ | ⟨j, hj, -⟩)
      · exact absurd h hpos
      · omega
      · omega

end Storage

/-! ## Runs -/

def OpPc.done : OpPc → List ℕ
  | running done => done
  | logging done _ _ => done
  | _ => []

namespace OpPc

@[simp] theorem wakeup_done (pc : OpPc) : pc.wakeup.done = pc.done := by
  cases pc with
  | outside | asleep | woken | running | logging | stray | committing => rfl

theorem wakeup_ne_asleep (pc : OpPc) : pc.wakeup ≠ .asleep := by
  cases pc with
  | outside | asleep | woken | running | logging | stray | committing => exact nofun

theorem done_of_busy {pc : OpPc} (h : pc.busy = 0) : pc.done = [] := by
  cases pc with
  | outside | asleep | woken | stray | committing => rfl
  | running | logging => cases h

end OpPc

def OpAct.IsLogWrite {ι : Type*} : OpAct ι → Prop
  | .logWrite _ _ _ | .record _ => True
  | _ => False

namespace Ops

variable {ι : Type*} [DecidableEq ι] [Fintype ι] {s s' s₀ : Ops ι} {π : List (OpAct ι × Ops ι)}

/-- Nobody is in an operation, and the log is empty, as after the recovery. -/
structure Idle (s : Ops ι) : Prop where
  op : ∀ i, s.op i = .outside
  n : s.fs.log.lh.n = 0
  outstanding : s.fs.log.outstanding = 0
  committing : s.fs.log.committing = false

def ended (s₀ : Ops ι) : List (OpAct ι × Ops ι) → List (List ℕ)
  | [] => []
  | (.endOp i, _) :: π => ((last s₀ π).op i).done :: ended s₀ π
  | (.commitDone _, _) :: _ => []
  | (.beginOp _, _) :: π | (.logWrite _ _ _, _) :: π | (.record _, _) :: π | (.commit _, _) :: π =>
    ended s₀ π

def beforeCommit (s₀ : Ops ι) : List (OpAct ι × Ops ι) → Ops ι
  | [] => s₀
  | (_, s) :: π => if s.fs.log.committing then beforeCommit s₀ π else s

def UnionWrites (s : Ops ι) (ended : List (List ℕ)) (b : ℕ) : Prop :=
  0 < s.fs.log.lh.n ∧ b = s.fs.log.start ∨ (∃ j < s.fs.log.lh.n, b = s.fs.log.start + j + 1) ∨
    ∃ done ∈ ended, b ∈ done

/-- What group commit is for, at a point of a run. -/
structure GroupCommit (s₀ : Ops ι) (π : List (OpAct ι × Ops ι)) : Prop where
  /-- No operation is in progress during a commit. -/
  alone : (last s₀ π).fs.log.committing = true →
    (last s₀ π).fs.log.outstanding = 0 ∧ ∀ i, ((last s₀ π).op i).busy = 0
  /-- There is no `log_write` during a commit. -/
  noWrite : ∀ a s π', π = (a, s) :: π' → a.IsLogWrite →
    (last s₀ π').fs.log.committing = false
  /-- A commit that is done has written the blocks logged by the operations that have ended since
  the commit before it. -/
  writes : ∀ i s π', π = (.commitDone i, s) :: π' → ∃ l,
    s.fs.writes = l ++ (beforeCommit s₀ π').fs.writes ∧
      ∀ b, b ∈ l ↔ (beforeCommit s₀ π').UnionWrites (ended s₀ π') b
  /-- Between operations the log is empty, and nobody sleeps in `begin_op`. -/
  quiet : (last s₀ π).fs.log.outstanding = 0 → (last s₀ π).fs.log.committing = false →
    (last s₀ π).fs.log.lh.n = 0 ∧ ∀ i, (last s₀ π).op i ≠ .asleep

def Commits (s₀ : Ops ι) (π : List (OpAct ι × Ops ι)) (p : Prog Storage Unit) (fs : Storage) :
    Prop :=
  p.Safe (fun t => t.log.outstanding = 0 ∧ t.log.committing = true ∧ t.log.lh.n ≤ LOGSIZE)
    (fun _ t => t.log.lh.n = 0 ∧ ∃ l, t.writes = l ++ (beforeCommit s₀ π).fs.writes ∧
      ∀ b, b ∈ l ↔ (beforeCommit s₀ π).UnionWrites (ended s₀ π) b) fs

/-- The invariant, of the state `s` after the history `π`. -/
structure Grouped (s₀ : Ops ι) (π : List (OpAct ι × Ops ι)) (s : Ops ι) : Prop where
  n_le : s.fs.log.lh.n ≤ LOGSIZE
  outstanding : s.fs.log.outstanding = (∑ i, (s.op i).busy : ℕ)
  busy : ∀ i, (s.op i).busy ≠ 0 → s.fs.log.committing = false
  commits : ∀ i p, s.op i = .committing p → s.fs.log.committing = true ∧ Commits s₀ π p s.fs
  one : ∀ i j p q, s.op i = .committing p → s.op j = .committing q → i = j
  names : s.fs.log.committing = false →
    ∀ b, s.fs.log.lh.Names b ↔ (∃ done ∈ ended s₀ π, b ∈ done) ∨ ∃ i, b ∈ (s.op i).done
  idle : s.fs.log.committing = false → s.fs.log.outstanding = 0 → s.fs.log.lh.n = 0
  asleep : ∀ i, s.op i = .asleep → s.fs.log.committing = true ∨ 0 < s.fs.log.outstanding

omit [DecidableEq ι] [Fintype ι] in
theorem beforeCommit_of_clear (h : (last s₀ π).fs.log.committing = false) :
    beforeCommit s₀ π = last s₀ π := by
  cases π with
  | nil => rfl
  | cons x π =>
    obtain ⟨a, s⟩ := x
    exact if_neg (by rw [show s.fs.log.committing = false from h]; decide)

omit [DecidableEq ι] [Fintype ι] in
theorem beforeCommit_cons (a : OpAct ι) (h : s.fs.log.committing = true) :
    beforeCommit s₀ ((a, s) :: π) = beforeCommit s₀ π :=
  if_pos h

omit [DecidableEq ι] in
theorem Grouped.outstanding_eq_zero (h : Grouped s₀ π s) (hc : s.fs.log.committing = true) :
    s.fs.log.outstanding = 0 ∧ ∀ i, (s.op i).busy = 0 := by
  have hbusy : ∀ i, (s.op i).busy = 0 := by
    intro i
    by_contra hne
    rw [h.busy i hne] at hc
    cases hc
  refine ⟨?_, hbusy⟩
  rw [h.outstanding, Finset.sum_eq_zero fun i _ => hbusy i]
  rfl

omit [DecidableEq ι] in
theorem Grouped.not_committing (h : Grouped s₀ π s) (hc : s.fs.log.committing = false) (i : ι)
    (p : Prog Storage Unit) : s.op i ≠ .committing p := by
  intro hi
  rw [(h.commits i p hi).1] at hc
  cases hc

omit [DecidableEq ι] in
theorem Idle.grouped (h : s₀.Idle) : Grouped s₀ [] s₀ := by
  refine ⟨by rw [h.n]; exact Nat.zero_le _, ?_, fun i hi => ?_, fun i p hi => ?_,
    fun i j p q hi => ?_, fun _ b => ?_, fun _ _ => h.n, fun i hi => ?_⟩
  · rw [h.outstanding, Finset.sum_eq_zero fun i _ => by rw [h.op i]; rfl]
    rfl
  · exact h.committing
  · rw [h.op i] at hi
    cases hi
  · rw [h.op i] at hi
    cases hi
  · constructor
    · rintro ⟨j, hj, -⟩
      rw [h.n] at hj
      exact absurd hj (Nat.not_lt_zero _)
    · rintro (⟨d, hd, -⟩ | ⟨i, hi⟩)
      · cases hd
      · rw [h.op i] at hi
        cases hi
  · rw [h.op i] at hi
    cases hi

omit [DecidableEq ι] [Fintype ι] in
theorem Commits.cons {a : OpAct ι} {p : Prog Storage Unit} {fs : Storage} (h : Commits s₀ π p fs)
    (hc : s.fs.log.committing = true) (hended : ended s₀ ((a, s) :: π) = ended s₀ π) :
    Commits s₀ ((a, s) :: π) p fs := by
  unfold Commits
  rw [beforeCommit_cons a hc, hended]
  exact h

omit [DecidableEq ι] in
theorem grouped_of_clear (hc : s.fs.log.committing = false)
    (hnot : ∀ i p, s.op i ≠ .committing p) (hn : s.fs.log.lh.n ≤ LOGSIZE)
    (hout : s.fs.log.outstanding = (∑ i, (s.op i).busy : ℕ))
    (hnames : ∀ b, s.fs.log.lh.Names b ↔
      (∃ done ∈ ended s₀ π, b ∈ done) ∨ ∃ i, b ∈ (s.op i).done)
    (hidle : s.fs.log.outstanding = 0 → s.fs.log.lh.n = 0)
    (hasleep : ∀ i, s.op i = .asleep → 0 < s.fs.log.outstanding) : Grouped s₀ π s where
  n_le := hn
  outstanding := hout
  busy := fun _ _ => hc
  commits := fun i p hi => absurd hi (hnot i p)
  one := fun i _ p _ hi => absurd hi (hnot i p)
  names := fun _ => hnames
  idle := fun _ => hidle
  asleep := fun i hi => .inr (hasleep i hi)

omit [Fintype ι] in
theorem update_ne_committing {op : ι → OpPc} {pc : OpPc} (i : ι)
    (hop : ∀ j p, op j ≠ .committing p) (hpc : ∀ p, pc ≠ .committing p) (j : ι)
    (p : Prog Storage Unit) : update op i pc j ≠ .committing p := by
  by_cases hj : j = i
  · rw [hj, update_self]
    exact hpc p
  · rw [update_of_ne hj]
    exact hop j p

omit [Fintype ι] in
theorem exists_done_update (op : ι → OpPc) (i : ι) (pc : OpPc) (b : ℕ) :
    (∃ j, b ∈ (update op i pc j).done) ↔ b ∈ pc.done ∨ ∃ j, j ≠ i ∧ b ∈ (op j).done :=
  exists_update_iff op fun _ pc => b ∈ pc.done

omit [Fintype ι] in
theorem exists_done_iff (op : ι → OpPc) (i : ι) (b : ℕ) :
    (∃ j, b ∈ (op j).done) ↔ b ∈ (op i).done ∨ ∃ j, j ≠ i ∧ b ∈ (op j).done := by
  have hsplit := exists_done_update op i (op i) b
  rwa [update_eq_self] at hsplit

theorem busy_of_waiting {pc : OpPc} (h : pc = .outside ∨ pc = .woken) : pc.busy = 0 := by
  rcases h with rfl | rfl
  · rfl
  · rfl

theorem Grouped.beginOp {log : Log} {i : ι} (h : Grouped s₀ π s)
    (hpc : s.op i = .outside ∨ s.op i = .woken) (hbegin : s.fs.log.beginOp = some log) :
    Grouped s₀ ((.beginOp i, s.put log i (.running [])) :: π) (s.put log i (.running [])) := by
  unfold Log.beginOp at hbegin
  split at hbegin
  · cases hbegin
  rename_i hcom
  split at hbegin
  · cases hbegin
  cases hbegin
  have hclear : s.fs.log.committing = false := by simpa using hcom
  have hzero := busy_of_waiting hpc
  have hout := h.outstanding
  have hsum := sum_update OpPc.busy s.op i (.running [])
  rw [show (OpPc.running []).busy = 1 from rfl] at hsum
  have hpos : 0 < s.fs.log.outstanding + 1 := by omega
  refine grouped_of_clear hclear (update_ne_committing i (h.not_committing hclear) fun _ => nofun)
    h.n_le ?_ (fun b => ?_) (fun hz => absurd hz (Int.ne_of_gt hpos)) fun _ _ => hpos
  · show s.fs.log.outstanding + 1 = ((∑ j, (update s.op i (.running []) j).busy : ℕ) : ℤ)
    omega
  · refine (h.names hclear b).trans (or_congr_right ?_)
    refine (exists_done_iff s.op i b).trans (Iff.trans ?_ (exists_done_update s.op i _ b).symm)
    rw [OpPc.done_of_busy hzero]
    rfl

theorem Grouped.sleeps {i : ι} (h : Grouped s₀ π s) (hpc : s.op i = .outside ∨ s.op i = .woken)
    (hbegin : s.fs.log.beginOp = none) :
    Grouped s₀ ((.beginOp i, s.put s.fs.log i .asleep) :: π) (s.put s.fs.log i .asleep) := by
  have hzero := busy_of_waiting hpc
  have hnames : ∀ b, (∃ j, b ∈ (update s.op i .asleep j).done) ↔
      ∃ j, b ∈ (s.op j).done := by
    intro b
    refine (exists_done_update s.op i _ b).trans (Iff.trans ?_ (exists_done_iff s.op i b).symm)
    rw [OpPc.done_of_busy hzero]
    rfl
  have hmove : ∀ j pc, update s.op i .asleep j = pc → pc ≠ .asleep → s.op j = pc := by
    intro j pc hj hne
    by_cases hji : j = i
    · rw [hji, update_self] at hj
      exact absurd hj.symm hne
    · rwa [update_of_ne hji] at hj
  refine ⟨h.n_le, ?_, fun j hj => ?_, fun j p hj => ?_, fun j k p q hj hk => ?_, fun hc b => ?_,
    h.idle, fun j _ => ?_⟩
  · have hsum := sum_update OpPc.busy s.op i .asleep
    rw [show OpPc.asleep.busy = 0 from rfl] at hsum
    have hout := h.outstanding
    show s.fs.log.outstanding = ((∑ j, (update s.op i .asleep j).busy : ℕ) : ℤ)
    omega
  · have hj' : (update s.op i .asleep j).busy ≠ 0 := hj
    refine h.busy j ?_
    rw [hmove j _ rfl fun he => hj' (by rw [he]; rfl)]
    exact hj'
  · obtain ⟨hc, hp⟩ := h.commits j p (hmove j _ hj nofun)
    exact ⟨hc, hp.cons hc rfl⟩
  · exact h.one j k p q (hmove j _ hj nofun) (hmove k _ hk nofun)
  · exact (h.names hc b).trans (or_congr_right (hnames b).symm)
  · -- An empty log has room for one operation.
    show s.fs.log.committing = true ∨ 0 < s.fs.log.outstanding
    cases hc : s.fs.log.committing with
    | true => exact .inl rfl
    | false =>
      right
      by_contra hnot
      have hout := h.outstanding
      have hz : s.fs.log.outstanding = 0 := by omega
      have hroom : ¬ ((s.fs.log.lh.n : ℤ) + (s.fs.log.outstanding + 1) * MAXOPBLOCKS > LOGSIZE) := by
        rw [hz, h.idle hc hz]
        decide
      rw [Log.beginOp, hc, if_neg Bool.false_ne_true, if_neg hroom] at hbegin
      cases hbegin

theorem Grouped.goes_on {a : OpAct ι} {i : ι} {pc : OpPc} (h : Grouped s₀ π s)
    (hi : (s.op i).busy = 1) (hpc : pc.busy = 1) (hop : s'.op = update s.op i pc)
    (hc : s'.fs.log.committing = s.fs.log.committing)
    (hout : s'.fs.log.outstanding = s.fs.log.outstanding) (hn : s'.fs.log.lh.n ≤ LOGSIZE)
    (hended : ended s₀ ((a, s') :: π) = ended s₀ π)
    (hnames : ∀ b, s'.fs.log.lh.Names b ↔ s.fs.log.lh.Names b ∨ b ∈ pc.done)
    (hdone : ∀ b ∈ (s.op i).done, b ∈ pc.done) : Grouped s₀ ((a, s') :: π) s' := by
  have hclear := h.busy i (by omega)
  have hsum := sum_update OpPc.busy s.op i pc
  have hout' := h.outstanding
  have hle : (s.op i).busy ≤ ∑ j, (s.op j).busy :=
    Finset.single_le_sum (f := fun j => (s.op j).busy) (fun _ _ => Nat.zero_le _)
      (Finset.mem_univ i)
  refine grouped_of_clear (hc.trans hclear) ?_ hn ?_ (fun b => ?_) (fun hz => ?_) fun _ _ => ?_
  · rw [hop]
    refine update_ne_committing i (h.not_committing hclear) fun p hp => ?_
    rw [hp] at hpc
    cases hpc
  · rw [hop, hout]
    omega
  · rw [hnames, h.names hclear, hended, hop, exists_done_update, exists_done_iff s.op i]
    constructor
    · rintro ((hb | hb | hb) | hb)
      · exact .inl hb
      · exact .inr (.inl (hdone b hb))
      · exact .inr (.inr hb)
      · exact .inr (.inl hb)
    · rintro (hb | hb | hb)
      · exact .inl (.inl hb)
      · exact .inr hb
      · exact .inl (.inr (.inr hb))
  · omega
  · omega

theorem Grouped.startCommit {i : ι} {done : List ℕ} {log : Log} (h : Grouped s₀ π s)
    (hs : last s₀ π = s) (hi : s.op i = .running done) (hend : s.fs.log.endOp = .ok (true, log)) :
    Grouped s₀ ((.endOp i, s.put log i (.committing Storage.commit)) :: π)
      (s.put log i (.committing Storage.commit)) := by
  have hclear := h.busy i (by rw [hi]; exact Nat.one_ne_zero)
  have hnot := h.not_committing hclear
  unfold Log.endOp at hend
  simp only [hclear, Bool.false_eq_true, if_false] at hend
  split at hend
  swap
  · cases hend
  rename_i hone
  obtain ⟨-, rfl⟩ := Prod.mk.inj (Except.ok.inj hend)
  have hsum := sum_update OpPc.busy s.op i (.committing Storage.commit)
  rw [hi, show (OpPc.running done).busy = 1 from rfl,
    show (OpPc.committing Storage.commit).busy = 0 from rfl] at hsum
  have hout := h.outstanding
  have hzero : ∑ j, (update s.op i (.committing Storage.commit) j).busy = 0 := by omega
  have hbusy := fun j => Finset.sum_eq_zero_iff.1 hzero j (Finset.mem_univ j)
  -- What the header names has been logged by operations that have ended.
  have hnames : ∀ b, s.fs.log.lh.Names b ↔ ∃ d ∈ done :: ended s₀ π, b ∈ d := by
    intro b
    rw [h.names hclear, exists_done_iff s.op i, hi]
    constructor
    · rintro (⟨d, hd, hb⟩ | hb | ⟨j, hj, hb⟩)
      · exact ⟨d, List.mem_cons_of_mem _ hd, hb⟩
      · exact ⟨done, List.mem_cons_self, hb⟩
      · have hzeroj := hbusy j
        rw [update_of_ne hj] at hzeroj
        rw [OpPc.done_of_busy hzeroj] at hb
        cases hb
    · rintro ⟨d, hd, hb⟩
      rcases List.mem_cons.1 hd with rfl | hd
      · exact .inr (.inl hb)
      · exact .inl ⟨d, hd, hb⟩
  refine ⟨h.n_le, ?_, fun j hj => absurd (hbusy j) hj, fun j p hj => ?_, fun j k p q hj hk => ?_,
    fun hc => ?_, fun hc => ?_, fun j hj => .inl rfl⟩
  · show s.fs.log.outstanding - 1 = ((∑ j, (update s.op i _ j).busy : ℕ) : ℤ)
    omega
  · refine ⟨rfl, ?_⟩
    have hji : j = i := by
      by_contra hji
      exact hnot j p ((update_of_ne hji ..).symm.trans hj)
    obtain rfl : Storage.commit = p := by
      have hj' : update s.op i (.committing Storage.commit) j = .committing p := hj
      rw [hji, update_self] at hj'
      injection hj'
    unfold Commits
    rw [beforeCommit_cons _ rfl, beforeCommit_of_clear (by rw [hs]; exact hclear), hs]
    have hsafe := Storage.commit_committed (s := { s.fs with log := { s.fs.log with
      outstanding := s.fs.log.outstanding - 1, committing := true } }) h.n_le
    refine hsafe.mono (fun t ht => ⟨?_, ?_, ?_⟩) fun _ t ht => ?_
    · exact ht.outstanding.trans hone
    · exact ht.committing
    · exact Nat.le_trans ht.n_le h.n_le
    · obtain ⟨hempty, l, hl, hmem⟩ := ht
      refine ⟨hempty, l, hl, fun b => (hmem b).trans ?_⟩
      refine or_congr_right (or_congr_right ((hnames b).trans ?_))
      rw [ended, hs, hi]
      rfl
  · have hboth : ∀ j p, update s.op i (.committing Storage.commit) j = .committing p →
        j = i := by
      intro j p hj
      by_contra hji
      exact hnot j p ((update_of_ne hji ..).symm.trans hj)
    exact (hboth j p hj).trans (hboth k q hk).symm
  · cases hc
  · cases hc

theorem Grouped.leaves {i : ι} {done : List ℕ} {log : Log} (h : Grouped s₀ π s)
    (hs : last s₀ π = s) (hi : s.op i = .running done) (hend : s.fs.log.endOp = .ok (false, log)) :
    Grouped s₀ ((.endOp i, s.wakeup.put log i .outside) :: π) (s.wakeup.put log i .outside) := by
  have hclear := h.busy i (by rw [hi]; exact Nat.one_ne_zero)
  unfold Log.endOp at hend
  simp only [hclear, Bool.false_eq_true, if_false] at hend
  split at hend
  · cases hend
  rename_i hmore
  obtain ⟨-, rfl⟩ := Prod.mk.inj (Except.ok.inj hend)
  have hsum := sum_update OpPc.busy s.wakeup.op i .outside
  have hwake : ∑ j, (s.wakeup.op j).busy = ∑ j, (s.op j).busy :=
    Finset.sum_congr rfl fun j _ => OpPc.wakeup_busy (s.op j)
  rw [hwake, show (s.wakeup.op i).busy = 1 from (OpPc.wakeup_busy _).trans (by rw [hi]; rfl),
    show OpPc.outside.busy = 0 from rfl] at hsum
  have hout := h.outstanding
  have hnot : ∀ j p, s.wakeup.op j ≠ .committing p := fun j p hj =>
    h.not_committing hclear j p (OpPc.wakeup_eq_committing hj)
  refine grouped_of_clear rfl (update_ne_committing i hnot fun _ => nofun) h.n_le ?_ (fun b => ?_)
    (fun hz => absurd hz hmore) fun j hj => ?_
  · show s.fs.log.outstanding - 1 =
      ((∑ j, (update s.wakeup.op i .outside j).busy : ℕ) : ℤ)
    omega
  · refine (h.names hclear b).trans ?_
    rw [ended, hs, hi, exists_done_iff s.op i, hi]
    refine Iff.trans ?_ (or_congr_right (exists_done_update s.wakeup.op i .outside b).symm)
    have hrest : (∃ j, j ≠ i ∧ b ∈ (s.wakeup.op j).done) ↔ ∃ j, j ≠ i ∧ b ∈ (s.op j).done :=
      exists_congr fun j => and_congr_right fun _ => by
        rw [show (s.wakeup.op j).done = (s.op j).done from OpPc.wakeup_done _]
    rw [hrest]
    constructor
    · rintro (⟨d, hd, hb⟩ | hb | hb)
      · exact .inl ⟨d, List.mem_cons_of_mem _ hd, hb⟩
      · exact .inl ⟨done, List.mem_cons_self, hb⟩
      · exact .inr (.inr hb)
    · rintro (⟨d, hd, hb⟩ | hb | hb)
      · rcases List.mem_cons.1 hd with rfl | hd
        · exact .inr (.inl hb)
        · exact .inl ⟨d, hd, hb⟩
      · cases hb
      · exact .inr (.inr hb)
  · -- Nobody is asleep after a `wakeup`.
    have hj' : update s.wakeup.op i .outside j = .asleep := hj
    by_cases hji : j = i
    · rw [hji, update_self] at hj'
      cases hj'
    · rw [update_of_ne hji] at hj'
      exact absurd hj' (OpPc.wakeup_ne_asleep _)

theorem Grouped.commit {i : ι} {p q : Prog Storage Unit} {fs : Storage} (h : Grouped s₀ π s)
    (hi : s.op i = .committing p) (hstep : p.step s.fs = some (q, fs)) :
    Grouped s₀
      ((.commit i, { s with fs := fs, op := update s.op i (.committing q) }) :: π)
      { s with fs := fs, op := update s.op i (.committing q) } := by
  obtain ⟨hc, hp⟩ := h.commits i p hi
  have hq := hp.step hstep
  obtain ⟨hout, hcom, hn⟩ := hq.start
  obtain ⟨-, hbusy⟩ := h.outstanding_eq_zero hc
  have hbusy' : ∀ j, (update s.op i (.committing q) j).busy = 0 := by
    intro j
    by_cases hj : j = i
    · rw [hj, update_self]
      rfl
    · rw [update_of_ne hj]
      exact hbusy j
  have hall : ∀ j p', update s.op i (.committing q) j = .committing p' → j = i := by
    intro j p' hj
    by_contra hji
    rw [update_of_ne hji] at hj
    exact hji (h.one j i p' p hj hi)
  refine ⟨hn, ?_, fun j hj => absurd (hbusy' j) hj, fun j p' hj => ?_, fun j k p' q' hj hk => ?_,
    fun hf => ?_, fun hf => ?_, fun j _ => .inl hcom⟩
  · show fs.log.outstanding = ((∑ j, (update s.op i (.committing q) j).busy : ℕ) : ℤ)
    rw [hout, Finset.sum_eq_zero fun j _ => hbusy' j]
    rfl
  · obtain rfl := hall j p' hj
    obtain rfl : q = p' := by
      have hj' : update s.op j (.committing q) j = .committing p' := hj
      rw [update_self] at hj'
      injection hj'
    exact ⟨hcom, Commits.cons hq hcom rfl⟩
  · exact (hall j p' hj).trans (hall k q' hk).symm
  · exact absurd (hcom.symm.trans hf) (by decide)
  · exact absurd (hcom.symm.trans hf) (by decide)

theorem Grouped.commitDone {i : ι} {r : Unit} (h : Grouped s₀ π s)
    (hi : s.op i = .committing (.ret r)) :
    Grouped s₀
      ((.commitDone i, s.wakeup.put { s.fs.log with committing := false } i .outside) :: π)
      (s.wakeup.put { s.fs.log with committing := false } i .outside) := by
  obtain ⟨hc, hp⟩ := h.commits i _ hi
  obtain ⟨hout, hbusy⟩ := h.outstanding_eq_zero hc
  obtain ⟨⟨-, -, hn⟩, hempty, -⟩ := hp
  have hpc : ∀ j, (update s.wakeup.op i .outside j).busy = 0 ∧
      (∀ p, update s.wakeup.op i .outside j ≠ .committing p) ∧
      update s.wakeup.op i .outside j ≠ .asleep := by
    intro j
    by_cases hj : j = i
    · rw [hj, update_self]
      exact ⟨rfl, nofun, nofun⟩
    · rw [update_of_ne hj]
      refine ⟨(OpPc.wakeup_busy _).trans (hbusy j), fun p hp => ?_, OpPc.wakeup_ne_asleep _⟩
      exact hj (h.one j i p _ (OpPc.wakeup_eq_committing hp) hi)
  refine grouped_of_clear rfl (fun j => (hpc j).2.1) hn ?_ (fun b => ?_) (fun _ => hempty)
    fun j hj => absurd hj (hpc j).2.2
  · show s.fs.log.outstanding =
      ((∑ j, (update s.wakeup.op i .outside j).busy : ℕ) : ℤ)
    rw [hout, Finset.sum_eq_zero fun j _ => (hpc j).1]
    rfl
  · constructor
    · rintro ⟨j, hj, -⟩
      have hj' : (j : ℕ) < s.fs.log.lh.n := hj
      rw [hempty] at hj'
      exact absurd hj' (Nat.not_lt_zero _)
    · rintro (⟨d, hd, -⟩ | ⟨j, hj⟩)
      · cases hd
      · have hj' : b ∈ (update s.wakeup.op i .outside j).done := hj
        rw [OpPc.done_of_busy (hpc j).1] at hj'
        cases hj'

omit [DecidableEq ι] in
theorem Grouped.stops {a : OpAct ι} {f : LogFault} (h : Grouped s₀ π s)
    (hended : ended s₀ ((a, { s with fault := some f }) :: π) = ended s₀ π) :
    Grouped s₀ ((a, { s with fault := some f }) :: π) { s with fault := some f } where
  n_le := h.n_le
  outstanding := h.outstanding
  busy := h.busy
  commits := fun i p hi =>
    let hp := h.commits i p hi
    ⟨hp.1, hp.2.cons hp.1 hended⟩
  one := h.one
  names := fun hc b => by
    rw [hended]
    exact h.names hc b
  idle := h.idle
  asleep := h.asleep

omit [DecidableEq ι] in
theorem Grouped.names_of_done {i : ι} {b : ℕ} (h : Grouped s₀ π s) (hi : (s.op i).busy ≠ 0)
    (hb : b ∈ (s.op i).done) : s.fs.log.lh.Names b :=
  (h.names (h.busy i hi) b).2 (.inr ⟨i, hb⟩)

theorem Grouped.step {a : OpAct ι} (h : Grouped s₀ π s) (hs : last s₀ π = s)
    (hstep : s.Stepped a s') : Grouped s₀ ((a, s') :: π) s' := by
  cases hstep with
  | beginOp hpc hbegin => exact h.beginOp hpc hbegin
  | sleeps hpc hbegin => exact h.sleeps hpc hbegin
  | refused hi hcheck => exact h.stops rfl
  | logWrite hi hcheck =>
    have hnamed := fun b => h.names_of_done (b := b) (by rw [hi]; exact Nat.one_ne_zero)
    rw [hi] at hnamed
    refine h.goes_on (by rw [hi]; rfl) rfl rfl rfl rfl h.n_le rfl (fun b => ?_) fun b hb => ?_
    · exact ⟨.inl, fun hb => hb.elim id (hnamed b)⟩
    · rw [hi] at hb
      exact hb
  | record hi hrec =>
    have hnamed := fun b => h.names_of_done (b := b) (by rw [hi]; exact Nat.one_ne_zero)
    rw [hi] at hnamed
    refine h.goes_on (by rw [hi]; rfl) rfl rfl rfl rfl (LogHeader.n_le_of_record hrec h.n_le) rfl
      (fun b => ?_) fun b hb => ?_
    · refine (LogHeader.names_record hrec b).trans ⟨?_, ?_⟩
      · rintro (rfl | hb)
        · exact .inr List.mem_insert_self
        · exact .inl hb
      · rintro (hb | hb)
        · exact .inr hb
        · rcases List.mem_insert_iff.1 hb with rfl | hb
          · exact .inl rfl
          · exact .inr (hnamed b hb)
    · rw [hi] at hb
      exact List.mem_insert_of_mem hb
  | overflow hi hrec => exact h.stops rfl
  | endPanics hi hend =>
    -- No commit is going on while the operation is in progress.
    have hclear := h.busy _ (by rw [hi]; exact Nat.one_ne_zero)
    unfold Log.endOp at hend
    simp only [hclear, Bool.false_eq_true, if_false] at hend
    split at hend
    · cases hend
    · cases hend
  | endOp hi hend =>
    rename_i i done last log
    cases last with
    | true => exact h.startCommit hs hi hend
    | false => exact h.leaves hs hi hend
  | commit hi hp => exact h.commit hi hp
  | commitDone hi => exact h.commitDone hi

theorem Grouped.noWrite {a : OpAct ι} (h : Grouped s₀ π s) (hstep : s.Stepped a s')
    (ha : a.IsLogWrite) : s.fs.log.committing = false := by
  cases hstep with
  | refused hi | logWrite hi | record hi | overflow hi =>
    exact h.busy _ (by rw [hi]; exact Nat.one_ne_zero)
  | beginOp | sleeps | endPanics | endOp | commit | commitDone => exact ha.elim

omit [DecidableEq ι] in
theorem Grouped.quiet (h : Grouped s₀ π s) (hout : s.fs.log.outstanding = 0)
    (hc : s.fs.log.committing = false) : s.fs.log.lh.n = 0 ∧ ∀ i, s.op i ≠ .asleep := by
  refine ⟨h.idle hc hout, fun i hi => ?_⟩
  rcases h.asleep i hi with hcom | hpos
  · rw [hc] at hcom
    cases hcom
  · rw [hout] at hpos
    exact absurd hpos (Int.lt_irrefl 0)

/-- The invariant, and what it gives of the last step. -/
structure Within (s₀ : Ops ι) (π : List (OpAct ι × Ops ι)) : Prop where
  grouped : Grouped s₀ π (last s₀ π)
  noStray : (last s₀ π).NoStray
  stepped : ∀ a s π', π = (a, s) :: π' →
    Grouped s₀ π' (last s₀ π') ∧ (last s₀ π').Stepped a s

theorem Within.groupCommit (h : Within s₀ π) : GroupCommit s₀ π := by
  refine ⟨h.grouped.outstanding_eq_zero, ?_, ?_, h.grouped.quiet⟩
  · rintro a s π' rfl ha
    obtain ⟨hg, hstep⟩ := h.stepped _ _ _ rfl
    exact hg.noWrite hstep ha
  · rintro i s π' rfl
    obtain ⟨hg, hstep⟩ := h.stepped _ _ _ rfl
    cases hstep with
    | commitDone hi => exact (hg.commits i _ hi).2.2.2

/-- Group commit, for any number of processes, in every run in which `log_write` is called in
operations only: no operation is in progress during a commit, none logs a block then, a commit writes
the union of the blocks logged by the operations that have ended since the commit before it, and
between operations the log is empty and nobody is left asleep. -/
theorem groupCommit_of_inside (h0 : s₀.Idle) (h : IsRun step s₀ π) (hin : Meets Inside s₀ π) :
    Along (GroupCommit s₀) π := by
  have hstart : Within s₀ [] := by
    refine ⟨h0.grouped, fun i b data hi => ?_, nofun⟩
    rw [last_nil, h0.op i] at hi
    cases hi
  refine (h.along_of_meets hstart ?_ hin).mono fun _ hw => hw.groupCommit
  rintro a s π hw hin hs
  have hstep := stepped_of_step hin hw.noStray hs
  refine ⟨hw.grouped.step rfl hstep, hw.noStray.step hin hs, ?_⟩
  rintro _ _ _ ⟨⟩
  exact ⟨hw.grouped, hstep⟩

/-- An operation that logs one block commits it: a copy in the log, the header, the block itself, and
the header again. -/
theorem groupCommit_of_inside_oneOp :
    ∃ π, IsRun step three π ∧ (last three π).fs.writes = [2, 100, 2, 3] ∧
      (last three π).fs.log.lh.n = 0 ∧ Along (GroupCommit three) π := by
  have heval : (history (tick next) three [] ([.beginOp 0, .logWrite 0 100 fun _ => 1, .record 0,
      .endOp 0] ++ List.replicate 20 (.commit 0) ++ [.commitDone 0])).map (fun π =>
        ((last three π).fs.writes, (last three π).fs.log.lh.n, decide (Meets Bounded three π))) =
      some ([2, 100, 2, 3], 0, true) := by decide +kernel
  obtain ⟨π, hrun, heq⟩ := exists_run_tick_if heval
  simp only [Prod.mk.injEq, decide_eq_true_eq] at heq
  obtain ⟨hwrites, hn, hbound⟩ := heq
  refine ⟨π, hrun, hwrites, hn, groupCommit_of_inside ⟨fun _ => rfl, rfl, rfl, rfl⟩ hrun ?_⟩
  exact hbound.mono fun _ _ => Bounded.inside

/-- Process 1 is outside of operations, and calls `log_write` while process 0 is in one. It records
the block after that operation has ended and committed: the block stays in the log. -/
theorem log_write_outside_stays :
    three.Idle ∧ ∃ π, IsRun step three π ∧ (last three π).fs.log.lh.n = 1 ∧
      ¬ GroupCommit three π := by
  refine ⟨⟨fun _ => rfl, rfl, rfl, rfl⟩, ?_⟩
  have heval : (history (tick next) three [] [.beginOp 0, .logWrite 1 100 fun _ => 1, .endOp 0, .commit 0,
      .commitDone 0, .record 1]).map (fun π => ((last three π).fs.log.lh.n,
        (last three π).fs.log.outstanding, (last three π).fs.log.committing)) =
      some (1, 0, false) := by decide +kernel
  obtain ⟨π, hrun, heq⟩ := exists_run_tick_if heval
  simp only [Prod.mk.injEq] at heq
  obtain ⟨hn, hout, hc⟩ := heq
  refine ⟨π, hrun, hn, fun h => ?_⟩
  have hzero := (h.quiet hout hc).1
  rw [hn] at hzero
  cases hzero

end Ops

end Xv6
