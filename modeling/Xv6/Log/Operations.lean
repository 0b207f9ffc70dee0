import Xv6.Lib.Run
import Xv6.Lib.Sum
import Xv6.Log.Crash

/-!
# File-system operations and the space in the log

Any number of processes run operations between `begin_op` and `end_op`, in any interleaving of the
sections under the lock, of the tests that `log_write` makes without it, and of the disk accesses of
`commit`. A fault stops the kernel. The tests of `log_write` find out whether there is an operation,
not whether it is one of the caller, so that processes outside of operations can call it as well.

`begin_op` lets an operation start if the blocks in the log and `MAXOPBLOCKS` for every operation
come to at most `LOGSIZE`. The log that `mkfs` makes has `LOGSIZE` blocks with the header, and
`log_write` panics when there is room for less than one more block after its own, so that three
operations can be let in that do not fit. `Room` is what `begin_op` would have to see to.
-/

namespace Xv6

open Function Run Prog

/-- Where a process is. -/
inductive OpPc
  | outside
  /-- In `sleep` of `begin_op`. -/
  | asleep
  /-- In `begin_op`, after a `wakeup`. -/
  | woken
  /-- In an operation that has logged the blocks `done`. -/
  | running (done : List ℕ)
  /-- In `log_write` of block `b` with the contents `data`, past its tests. -/
  | logging (done : List ℕ) (b : ℕ) (data : Block)
  /-- The same, outside of an operation. -/
  | stray (b : ℕ) (data : Block)
  /-- In `commit`, with `p` left to do. -/
  | committing (p : Prog Storage Unit)

namespace OpPc

/-- `wakeup(&log)`. -/
def wakeup : OpPc → OpPc
  | asleep => woken
  | pc => pc

def busy : OpPc → ℕ
  | running _ => 1
  | logging _ _ _ => 1
  | _ => 0

def allows (b : ℕ) : OpPc → Bool
  | outside => false
  | running done => b ∈ done ∨ done.length < MAXOPBLOCKS
  | _ => true

def tested (b : ℕ) (data : Block) : OpPc → Option OpPc
  | outside => some (stray b data)
  | running done => some (logging done b data)
  | _ => none

def records : OpPc → Option (ℕ × Block × OpPc)
  | stray b data => some (b, data, outside)
  | logging done b data => some (b, data, running (done.insert b))
  | _ => none

def owed : OpPc → ℕ
  | running done => MAXOPBLOCKS - done.length
  | logging done _ _ => MAXOPBLOCKS - done.length
  | _ => 0

end OpPc

/-- The processes and the log. -/
structure Ops (ι : Type*) where
  fs : Storage
  op : ι → OpPc
  fault : Option LogFault

/-- A step of process `i`. -/
inductive OpAct (ι : Type*)
  /-- One pass of the loop of `begin_op`. -/
  | beginOp (i : ι)
  /-- The tests of `log_write`. -/
  | logWrite (i : ι) (b : ℕ) (data : Block)
  /-- The section of `log_write` under the lock. -/
  | record (i : ι)
  /-- The first section of `end_op`. -/
  | endOp (i : ι)
  /-- One access of `commit`. -/
  | commit (i : ι)
  /-- The last section of `end_op`. -/
  | commitDone (i : ι)

namespace Ops

variable {ι : Type*} [DecidableEq ι]

def put (s : Ops ι) (log : Log) (i : ι) (pc : OpPc) : Ops ι :=
  { s with fs := { s.fs with log := log }, op := update s.op i pc }

/-- `wakeup(&log)`. -/
def wakeup (s : Ops ι) : Ops ι := { s with op := fun i => (s.op i).wakeup }

/-- One step. -/
def exec (s : Ops ι) : OpAct ι → Option (Ops ι)
  | .beginOp i =>
    match s.op i with
    | .outside | .woken =>
      match s.fs.log.beginOp with
      | some log => some (s.put log i (.running []))
      | none => some (s.put s.fs.log i .asleep)
    | _ => none
  | .logWrite i b data =>
    match (s.op i).tested b data with
    | some pc =>
      match s.fs.log.checkWrite with
      | some f => some { s with fault := some f }
      | none => some (s.put s.fs.log i pc)
    | none => none
  | .record i =>
    match (s.op i).records with
    | some (b, data, pc) =>
      match s.fs.log.lh.record b with
      | some lh =>
        let s := s.put { s.fs.log with lh := lh } i pc
        -- `b->flags |= B_DIRTY`
        some { s with fs := { s.fs with cache := update s.fs.cache b (some data) } }
      | none => some { s with fault := some .overflow }
    | none => none
  | .endOp i =>
    match s.op i with
    | .running _ =>
      match s.fs.log.endOp with
      | .error f => some { s with fault := some f }
      | .ok (true, log) => some (s.put log i (.committing Storage.commit))
      | .ok (false, log) => some (s.wakeup.put log i .outside)
    | _ => none
  | .commit i =>
    match s.op i with
    | .committing p => (p.step s.fs).map fun (q, fs) =>
        { s with fs := fs, op := update s.op i (.committing q) }
    | _ => none
  | .commitDone i =>
    match s.op i with
    | .committing (.ret _) => some (s.wakeup.put { s.fs.log with committing := false } i .outside)
    | _ => none

def step (s : Ops ι) (a : OpAct ι) (s' : Ops ι) : Prop := s.fault = none ∧ s.exec a = some s'

/-- No operation is in progress, and the log is the one of a disk that `mkfs` has made. -/
structure Start (s : Ops ι) : Prop where
  log : s.fs.log = .init 2 LOGSIZE
  op : ∀ i, s.op i = .outside
  fault : s.fault = none

def Inside (s : Ops ι) : OpAct ι → Prop
  | .logWrite i _ _ => s.op i ≠ .outside
  | _ => True

def NoStray (s : Ops ι) : Prop := ∀ i b data, s.op i ≠ .stray b data

def Bounded (s : Ops ι) : OpAct ι → Prop
  | .logWrite i b _ => (s.op i).allows b = true
  | _ => True

instance decidableBounded (s : Ops ι) : ∀ a, Decidable (s.Bounded a)
  | .logWrite i b _ => inferInstanceAs (Decidable ((s.op i).allows b = true))
  | .beginOp _ | .record _ | .endOp _ | .commit _ | .commitDone _ => isTrue trivial

variable [Fintype ι]

def Room (s : Ops ι) : OpAct ι → Prop
  | .beginOp _ => s.fs.log.beginOp.isSome = true →
    s.fs.log.lh.n + ∑ i, (s.op i).owed + MAXOPBLOCKS + 2 ≤ s.fs.log.size
  | _ => True

instance decidableRoom (s : Ops ι) : ∀ a, Decidable (s.Room a)
  | .beginOp _ => inferInstanceAs (Decidable (s.fs.log.beginOp.isSome = true →
      s.fs.log.lh.n + ∑ i, (s.op i).owed + MAXOPBLOCKS + 2 ≤ s.fs.log.size))
  | .logWrite _ _ _ | .record _ | .endOp _ | .commit _ | .commitDone _ => isTrue trivial

end Ops

/-! ## The header -/

theorem LogHeader.record_spec {lh : LogHeader} (b : ℕ) (hn : lh.n < LOGSIZE) :
    ∃ lh', lh.record b = some lh' ∧ (lh'.n = lh.n ∨ ¬ lh.Names b ∧ lh'.n = lh.n + 1) ∧ lh'.Names b ∧
      ∀ a, lh.Names a → lh'.Names a := by
  unfold record
  split
  · rename_i i hfind
    have hi : i < lh.n ∧ lh.block i = b := by simpa using List.find?_some hfind
    have hsame : update lh.block i b = lh.block := by
      rw [← hi.2, update_eq_self]
    rw [hsame]
    exact ⟨lh, rfl, .inl rfl, ⟨i, hi⟩, fun _ h => h⟩
  · rename_i hfind
    have hnone : ¬ lh.Names b := by
      rintro ⟨i, hi⟩
      simpa [hi] using List.find?_eq_none.1 hfind i (List.mem_finRange i)
    rw [show CArray.wr lh.block lh.n b = some (update lh.block ⟨lh.n, hn⟩ b) from
      CArray.wr_natCast lh.block ⟨lh.n, hn⟩ b]
    refine ⟨_, rfl, .inr ⟨hnone, rfl⟩, ⟨⟨lh.n, hn⟩, Nat.lt_succ_self _, ?_⟩, ?_⟩
    · exact update_self ..
    rintro a ⟨i, hi, rfl⟩
    -- The entries in use are before the new one.
    have hne : i ≠ ⟨lh.n, hn⟩ := fun h => absurd (congrArg Fin.val h) (Nat.ne_of_lt hi)
    exact ⟨i, Nat.lt_succ_of_lt hi, update_of_ne hne ..⟩

/-! ## Commits -/

/-- A write of `commit` leaves the fields of `log`, and adds no entry to the header. -/
structure Storage.Lowers (s s' : Storage) : Prop where
  size : s'.log.size = s.log.size
  outstanding : s'.log.outstanding = s.log.outstanding
  committing : s'.log.committing = s.log.committing
  n_le : s'.log.lh.n ≤ s.log.lh.n

namespace Storage

theorem bwrite_lowers (b : ℕ) (data : Block) : (bwrite b data).Writes Lowers := by
  refine Writes.set fun s s' h => ?_
  cases h
  exact ⟨rfl, rfl, rfl, Nat.le_refl _⟩

theorem writeHead_lowers : writeHead.Writes Lowers :=
  Reads.get.writes.bind fun _ => Reads.get.writes.bind fun _ => Reads.get.writes.bind fun _ =>
    bwrite_lowers _ _

theorem clearHead_lowers : clearHead.Writes Lowers := by
  refine Writes.set fun s s' h => ?_
  cases h
  exact ⟨rfl, rfl, rfl, Nat.zero_le _⟩

theorem writeLog_lowers : writeLog.Writes Lowers :=
  Reads.get.writes.bind fun _ => Writes.forRange (fun _ => Reads.get.writes.bind fun _ =>
    Reads.get.writes.bind fun _ => Reads.get.writes.bind fun _ => bwrite_lowers _ _) _ _

theorem installTrans_lowers : installTrans.Writes Lowers :=
  Reads.get.writes.bind fun _ => Writes.forRange (fun _ => Reads.get.writes.bind fun _ =>
    Reads.get.writes.bind fun _ => Reads.get.writes.bind fun _ => bwrite_lowers _ _) _ _

theorem commit_lowers : commit.Writes Lowers :=
  Reads.get.writes.bind fun _ => Writes.ite (writeLog_lowers.bind fun _ =>
    writeHead_lowers.bind fun _ => installTrans_lowers.bind fun _ =>
      clearHead_lowers.bind fun _ => writeHead_lowers) trivial

end Storage

/-! ## Runs -/

def OpPc.Waits : OpPc → Prop
  | outside | asleep | woken => True
  | _ => False

def OpPc.Ok (log : Log) : OpPc → Prop
  | running done => log.committing = false ∧ (∀ b ∈ done, log.lh.Names b) ∧
      done.length ≤ MAXOPBLOCKS
  | logging done b _ => log.committing = false ∧ (∀ b ∈ done, log.lh.Names b) ∧
      done.length ≤ MAXOPBLOCKS ∧ (b ∈ done ∨ done.length < MAXOPBLOCKS)
  | committing p => log.committing = true ∧ p.Writes Storage.Lowers
  | stray _ _ => False
  | _ => True

namespace OpPc

variable {log log' : Log} {pc : OpPc}

theorem Waits.ok (h : pc.Waits) : pc.Ok log := by
  cases pc with
  | outside | asleep | woken => trivial
  | running | logging | committing | stray => exact h.elim

theorem Waits.busy (h : pc.Waits) : pc.busy = 0 := by
  cases pc with
  | outside | asleep | woken | committing | stray => rfl
  | running | logging => exact h.elim

theorem Ok.mono (h : pc.Ok log) (hc : log'.committing = log.committing)
    (hn : ∀ b, log.lh.Names b → log'.lh.Names b) : pc.Ok log' := by
  cases pc with
  | outside | asleep | woken => trivial
  | running done => exact ⟨hc.trans h.1, fun b hb => hn b (h.2.1 b hb), h.2.2⟩
  | logging done b data => exact ⟨hc.trans h.1, fun b hb => hn b (h.2.1 b hb), h.2.2⟩
  | committing p => exact ⟨hc.trans h.1, h.2⟩
  | stray b data => exact h

theorem Ok.committing_of_busy (h : pc.Ok log) (hb : pc.busy ≠ 0) : log.committing = false := by
  cases pc with
  | outside | asleep | woken | committing | stray => exact absurd rfl hb
  | running done => exact h.1
  | logging done b data => exact h.1

theorem waits_of_busy (hok : pc.Ok log) (hb : pc.busy = 0) (hc : ∀ p, pc ≠ .committing p) :
    pc.Waits := by
  cases pc with
  | outside | asleep | woken => trivial
  | running | logging => cases hb
  | committing p => exact absurd rfl (hc p)
  | stray b data => exact hok

@[simp] theorem wakeup_busy (pc : OpPc) : pc.wakeup.busy = pc.busy := by cases pc <;> rfl

@[simp] theorem wakeup_owed (pc : OpPc) : pc.wakeup.owed = pc.owed := by cases pc <;> rfl

theorem Ok.wakeup (h : pc.Ok log) : pc.wakeup.Ok log := by
  cases pc <;> exact h

theorem wakeup_eq_committing {p : Prog Storage Unit} (h : pc.wakeup = .committing p) :
    pc = .committing p := by
  cases pc <;> first | exact h | cases h

end OpPc

namespace Ops

variable {ι : Type*} [DecidableEq ι] [Fintype ι] {s s' : Ops ι}

/-- What a step does, where `log_write` is called in operations. -/
inductive Stepped (s : Ops ι) : OpAct ι → Ops ι → Prop
  | beginOp {i : ι} {log : Log} : s.op i = .outside ∨ s.op i = .woken →
      s.fs.log.beginOp = some log → Stepped s (.beginOp i) (s.put log i (.running []))
  | sleeps {i : ι} : s.op i = .outside ∨ s.op i = .woken → s.fs.log.beginOp = none →
      Stepped s (.beginOp i) (s.put s.fs.log i .asleep)
  | refused {i : ι} {done : List ℕ} {b : ℕ} {data : Block} {f : LogFault} :
      s.op i = .running done → s.fs.log.checkWrite = some f →
      Stepped s (.logWrite i b data) { s with fault := some f }
  | logWrite {i : ι} {done : List ℕ} {b : ℕ} {data : Block} :
      s.op i = .running done → s.fs.log.checkWrite = none →
      Stepped s (.logWrite i b data) (s.put s.fs.log i (.logging done b data))
  | record {i : ι} {done : List ℕ} {b : ℕ} {data : Block} {lh : LogHeader} :
      s.op i = .logging done b data → s.fs.log.lh.record b = some lh →
      Stepped s (.record i)
        { s with
          fs := { s.fs with
            log := { s.fs.log with lh := lh }
            cache := update s.fs.cache b (some data) }
          op := update s.op i (.running (done.insert b)) }
  | overflow {i : ι} {done : List ℕ} {b : ℕ} {data : Block} :
      s.op i = .logging done b data → s.fs.log.lh.record b = none →
      Stepped s (.record i) { s with fault := some .overflow }
  | endPanics {i : ι} {done : List ℕ} {f : LogFault} : s.op i = .running done →
      s.fs.log.endOp = .error f → Stepped s (.endOp i) { s with fault := some f }
  | endOp {i : ι} {done : List ℕ} {last : Bool} {log : Log} : s.op i = .running done →
      s.fs.log.endOp = .ok (last, log) →
      Stepped s (.endOp i) (if last then s.put log i (.committing Storage.commit)
        else s.wakeup.put log i .outside)
  | commit {i : ι} {p q : Prog Storage Unit} {fs : Storage} : s.op i = .committing p →
      p.step s.fs = some (q, fs) →
      Stepped s (.commit i) { s with fs := fs, op := update s.op i (.committing q) }
  | commitDone {i : ι} {r : Unit} : s.op i = .committing (.ret r) →
      Stepped s (.commitDone i) (s.wakeup.put { s.fs.log with committing := false } i .outside)

omit [DecidableEq ι] [Fintype ι] in
theorem Bounded.inside {a : OpAct ι} (h : s.Bounded a) : s.Inside a := by
  cases a with
  | logWrite i b data =>
    intro hi
    rw [Bounded, hi] at h
    cases h
  | _ => trivial

omit [Fintype ι] in
theorem stepped_of_step {a : OpAct ι} (hin : s.Inside a) (hno : s.NoStray) (hs : s.step a s') :
    s.Stepped a s' := by
  replace hs : s.exec a = some s' := hs.2
  cases a with
  | beginOp i =>
    -- The first pass of the loop and those after a `wakeup` do the same.
    have hbegins : s.op i = .outside ∨ s.op i = .woken → (match s.fs.log.beginOp with
        | some log => some (s.put log i (.running []))
        | none => some (s.put s.fs.log i .asleep)) = some s' → s.Stepped (.beginOp i) s' := by
      intro hpc hs
      split at hs
      · rename_i log hbegin
        cases hs
        exact .beginOp hpc hbegin
      · rename_i hbegin
        cases hs
        exact .sleeps hpc hbegin
    simp only [exec] at hs
    split at hs
    · rename_i hpc
      exact hbegins (.inl hpc) hs
    · rename_i hpc
      exact hbegins (.inr hpc) hs
    · cases hs
  | logWrite i b data =>
    cases hi : s.op i with
    | outside => exact absurd hi hin
    | running done =>
      simp only [exec, hi, OpPc.tested] at hs
      split at hs
      · rename_i f hcheck
        cases hs
        exact .refused hi hcheck
      · rename_i hcheck
        cases hs
        exact .logWrite hi hcheck
    | asleep | woken | logging | stray | committing =>
      simp only [exec, hi, OpPc.tested] at hs
      cases hs
  | record i =>
    cases hi : s.op i with
    | stray b data => exact absurd hi (hno i b data)
    | logging done b data =>
      simp only [exec, hi, OpPc.records] at hs
      split at hs
      · rename_i lh hrec
        cases hs
        exact .record hi hrec
      · rename_i hrec
        cases hs
        exact .overflow hi hrec
    | outside | asleep | woken | running | committing =>
      simp only [exec, hi, OpPc.records] at hs
      cases hs
  | endOp i =>
    simp only [exec] at hs
    split at hs
    · rename_i done hi
      split at hs
      · rename_i f hend
        cases hs
        exact .endPanics hi hend
      · rename_i log hend
        cases hs
        exact .endOp hi hend
      · rename_i log hend
        cases hs
        exact .endOp hi hend
    · cases hs
  | commit i =>
    simp only [exec] at hs
    split at hs
    · rename_i p hi
      obtain ⟨⟨q, fs⟩, hstep, rfl⟩ := Option.map_eq_some_iff.1 hs
      exact .commit hi hstep
    · cases hs
  | commitDone i =>
    simp only [exec] at hs
    split at hs
    · rename_i hi
      cases hs
      exact .commitDone hi
    · cases hs

omit [Fintype ι] in
theorem NoStray.step {a : OpAct ι} (hno : s.NoStray) (hin : s.Inside a) (hs : s.step a s') :
    s'.NoStray := by
  have hput : ∀ {op : ι → OpPc} {i pc}, (∀ j b data, op j ≠ .stray b data) →
      (∀ b data, pc ≠ .stray b data) → ∀ j b data, update op i pc j ≠ .stray b data :=
    fun hop hpc => (forall_update_iff _ fun _ (pc : OpPc) =>
      ∀ b data, pc ≠ .stray b data).2 ⟨hpc, fun j _ => hop j⟩
  have hwake : ∀ j b data, (s.op j).wakeup ≠ .stray b data := by
    intro j b data hj
    cases hpc : s.op j <;> rw [hpc] at hj <;> cases hj
    exact hno j b data hpc
  cases stepped_of_step hin hno hs with
  | refused | overflow | endPanics => exact hno
  | endOp hi hend =>
    split
    · exact hput hno (by simp)
    · exact hput hwake (by simp)
  | commitDone hi => exact hput hwake (by simp)
  | beginOp | sleeps | logWrite | record | commit => exact hput hno (by simp)

/-- What holds in every state of a run in which `begin_op` leaves room. -/
structure Inv (s : Ops ι) : Prop where
  size : s.fs.log.size = LOGSIZE
  room : s.fs.log.lh.n + ∑ i, (s.op i).owed + 2 ≤ LOGSIZE
  outstanding : s.fs.log.outstanding = (∑ i, (s.op i).busy : ℕ)
  ok : ∀ i, (s.op i).Ok s.fs.log
  one : ∀ i j p q, s.op i = .committing p → s.op j = .committing q → i = j
  fault : s.fault = none

omit [DecidableEq ι] in
theorem Inv.one_le_outstanding {i : ι} (h : s.Inv) (hi : (s.op i).busy = 1) :
    1 ≤ s.fs.log.outstanding := by
  have hle : (s.op i).busy ≤ ∑ j, (s.op j).busy :=
    Finset.single_le_sum (f := fun j => (s.op j).busy) (fun _ _ => Nat.zero_le _)
      (Finset.mem_univ i)
  rw [h.outstanding]
  omega

omit [DecidableEq ι] in
theorem Inv.others_wait {i j : ι} {p : Prog Storage Unit} (h : s.Inv)
    (hi : s.op i = .committing p) (hj : j ≠ i) : (s.op j).Waits := by
  have hcom : s.fs.log.committing = true := by
    have hok := h.ok i
    rw [hi] at hok
    exact hok.1
  refine OpPc.waits_of_busy (h.ok j) ?_ fun q hq => hj (h.one j i q p hq hi)
  by_contra hbusy
  have hfalse := (h.ok j).committing_of_busy hbusy
  rw [hcom] at hfalse
  cases hfalse

theorem Inv.put {log : Log} {i : ι} {pc : OpPc} (h : s.Inv) (hsize : log.size = s.fs.log.size)
    (hroom : log.lh.n + ∑ j, (s.op j).owed + pc.owed + 2 ≤ LOGSIZE + (s.op i).owed)
    (hout : log.outstanding + (s.op i).busy = s.fs.log.outstanding + pc.busy) (hok : pc.Ok log)
    (hothers : ∀ j, j ≠ i → (s.op j).Ok log)
    (hone : ∀ p q j, pc = .committing p → j ≠ i → s.op j ≠ .committing q) :
    (s.put log i pc).Inv := by
  have howed := sum_update OpPc.owed s.op i pc
  have hbusy := sum_update OpPc.busy s.op i pc
  -- Of two processes that commit, `i` is either both or neither.
  have hone' : ∀ j k p q, update s.op i pc j = .committing p →
      update s.op i pc k = .committing q → j = i ∨ k ≠ i := by
    intro j k p q hj hk
    by_cases hji : j = i
    · exact .inl hji
    · refine .inr fun hki => ?_
      rw [update_of_ne hji] at hj
      rw [hki, update_self] at hk
      exact hone q p j hk hji hj
  refine ⟨hsize.trans h.size, ?_, ?_, fun j => ?_, fun j k p q hj hk => ?_, h.fault⟩
  · show log.lh.n + ∑ j, (update s.op i pc j).owed + 2 ≤ LOGSIZE
    omega
  · show log.outstanding = ((∑ j, (update s.op i pc j).busy : ℕ) : ℤ)
    have := h.outstanding
    omega
  · show (update s.op i pc j).Ok log
    by_cases hj : j = i
    · rw [hj, update_self]
      exact hok
    · rw [update_of_ne hj]
      exact hothers j hj
  · rcases hone' j k p q hj hk with rfl | hki
    · rcases hone' k j q p hk hj with rfl | hjj
      · rfl
      · exact absurd rfl hjj
    · rcases hone' k j q p hk hj with hk' | hji
      · exact absurd hk' hki
      · refine h.one j k p q ?_ ?_
        · exact (update_of_ne hji ..).symm.trans hj
        · exact (update_of_ne hki ..).symm.trans hk

omit [DecidableEq ι] in
theorem Inv.wakeup (h : s.Inv) : s.wakeup.Inv := by
  refine ⟨h.size, ?_, ?_, fun i => (h.ok i).wakeup, fun i j p q hi hj => ?_, h.fault⟩
  · simpa [Ops.wakeup] using h.room
  · simpa [Ops.wakeup] using h.outstanding
  · exact h.one i j p q (OpPc.wakeup_eq_committing hi) (OpPc.wakeup_eq_committing hj)

theorem Inv.outside {log : Log} {i : ι} (h : s.Inv) (hsize : log.size = s.fs.log.size)
    (hlh : log.lh = s.fs.log.lh)
    (hout : log.outstanding + (s.op i).busy = s.fs.log.outstanding)
    (hothers : ∀ j, j ≠ i → (s.op j).Ok log) : (s.wakeup.put log i .outside).Inv := by
  have hroom := h.wakeup.room
  refine h.wakeup.put hsize ?_ ?_ trivial (fun j hj => (hothers j hj).wakeup)
    fun p q j hp => (by cases hp)
  · rw [hlh]
    exact Nat.le_add_right_of_le hroom
  · show log.outstanding + ((s.op i).wakeup.busy : ℕ) = s.fs.log.outstanding + 0
    rw [OpPc.wakeup_busy, hout, Int.add_zero]

theorem Inv.beginOp {log : Log} {i : ι} (h : s.Inv) (hpc : (s.op i).Waits)
    (hbegin : s.fs.log.beginOp = some log)
    (hroom : s.fs.log.lh.n + ∑ j, (s.op j).owed + MAXOPBLOCKS + 2 ≤ s.fs.log.size) :
    (s.put log i (.running [])).Inv := by
  unfold Log.beginOp at hbegin
  split at hbegin
  · cases hbegin
  rename_i hcom
  split at hbegin
  · cases hbegin
  cases hbegin
  refine h.put rfl ?_ ?_ ⟨by simpa using hcom, by simp, Nat.zero_le _⟩
    (fun j _ => (h.ok j).mono rfl fun _ hb => hb) fun p q j hp => (by cases hp)
  · show s.fs.log.lh.n + ∑ j, (s.op j).owed + MAXOPBLOCKS + 2 ≤ LOGSIZE + (s.op i).owed
    rw [h.size] at hroom
    omega
  · rw [hpc.busy]
    exact Int.add_zero _

theorem Inv.sleeps {i : ι} (h : s.Inv) (hpc : (s.op i).Waits) :
    (s.put s.fs.log i .asleep).Inv := by
  have hroom := h.room
  refine h.put rfl ?_ ?_ trivial (fun j _ => h.ok j) fun p q j hp => (by cases hp)
  · show s.fs.log.lh.n + ∑ j, (s.op j).owed + 0 + 2 ≤ LOGSIZE + (s.op i).owed
    omega
  · rw [hpc.busy]
    rfl

omit [DecidableEq ι] in
theorem Inv.checkWrite {i : ι} {done : List ℕ} (h : s.Inv) (hi : s.op i = .running done) :
    s.fs.log.checkWrite = none := by
  have hroom := h.room
  have hsize := h.size
  have hout : 1 ≤ s.fs.log.outstanding := h.one_le_outstanding (i := i) (by rw [hi]; rfl)
  unfold Log.checkWrite
  rw [if_neg (by omega), if_neg (by omega)]

theorem Inv.logWrite {i : ι} {done : List ℕ} (h : s.Inv) (hi : s.op i = .running done) {b : ℕ}
    (data : Block) (hb : b ∈ done ∨ done.length < MAXOPBLOCKS) :
    (s.put s.fs.log i (.logging done b data)).Inv := by
  have hroom := h.room
  obtain ⟨hcom, hnames, hlen⟩ : (OpPc.running done).Ok s.fs.log := hi ▸ h.ok i
  refine h.put rfl ?_ ?_ ⟨hcom, hnames, hlen, hb⟩ (fun j _ => h.ok j) fun p q j hp => (by cases hp)
  · rw [hi]
    show s.fs.log.lh.n + ∑ j, (s.op j).owed + (MAXOPBLOCKS - done.length) + 2 ≤
      LOGSIZE + (MAXOPBLOCKS - done.length)
    omega
  · rw [hi]
    rfl

theorem Inv.record {i : ι} {done : List ℕ} {b : ℕ} {data : Block} (h : s.Inv)
    (hi : s.op i = .logging done b data) :
    ∃ lh, s.fs.log.lh.record b = some lh ∧
      (s.put { s.fs.log with lh := lh } i (.running (done.insert b))).Inv := by
  have hroom := h.room
  obtain ⟨hcom, hnames, hlen, hb⟩ : (OpPc.logging done b data).Ok s.fs.log := hi ▸ h.ok i
  obtain ⟨lh, hrec, hn, hbn, hmono⟩ := s.fs.log.lh.record_spec b (by omega)
  refine ⟨lh, hrec, h.put rfl ?_ ?_ ⟨hcom, ?_, ?_⟩ (fun j _ => (h.ok j).mono rfl hmono)
    fun p q j hp => (by cases hp)⟩
  · rw [hi]
    show lh.n + ∑ j, (s.op j).owed + (MAXOPBLOCKS - (done.insert b).length) + 2 ≤
      LOGSIZE + (MAXOPBLOCKS - done.length)
    -- The header grows only by a block that the operation has not logged, which then counts in
    -- `done` as well.
    by_cases hmem : b ∈ done
    · -- The block is in the header already.
      rw [List.insert_of_mem hmem]
      rcases hn with hn | ⟨hnot, -⟩
      · omega
      · exact absurd (hnames b hmem) hnot
    · rw [List.length_insert_of_not_mem hmem]
      have hlt := hb.resolve_left hmem
      omega
  · rw [hi]
    rfl
  · intro a ha
    rcases List.mem_insert_iff.1 ha with rfl | ha
    · exact hbn
    · exact hmono a (hnames a ha)
  · by_cases hmem : b ∈ done
    · rw [List.insert_of_mem hmem]
      exact hlen
    · rw [List.length_insert_of_not_mem hmem]
      exact hb.resolve_left hmem

theorem Inv.endOp {i : ι} {done : List ℕ} (h : s.Inv) (hi : s.op i = .running done) :
    ∃ last log, s.fs.log.endOp = .ok (last, log) ∧
      (if last then s.put log i (.committing Storage.commit)
        else s.wakeup.put log i .outside).Inv := by
  have hroom := h.room
  obtain ⟨hcom, -, -⟩ : (OpPc.running done).Ok s.fs.log := hi ▸ h.ok i
  -- A commit would exclude the operation that ends here.
  have hidle : ∀ j q, s.op j ≠ .committing q := by
    intro j q hj
    have hok : (OpPc.committing q).Ok s.fs.log := hj ▸ h.ok j
    exact absurd (hcom.symm.trans hok.1) (by decide)
  unfold Log.endOp
  simp only [hcom, Bool.false_eq_true, if_false]
  by_cases hlast : s.fs.log.outstanding - 1 = 0
  · rw [if_pos hlast]
    refine ⟨true, _, rfl, ?_⟩
    rw [if_pos rfl]
    refine h.put rfl ?_ ?_ ⟨rfl, Storage.commit_lowers⟩ (fun j hj => ?_) fun _ q j _ _ => hidle j q
    · show s.fs.log.lh.n + ∑ j, (s.op j).owed + 0 + 2 ≤ LOGSIZE + (s.op i).owed
      omega
    · rw [hi]
      show s.fs.log.outstanding - 1 + 1 = s.fs.log.outstanding + 0
      omega
    · -- The caller was the only one to count.
      have hsum : ∑ j, (update s.op i .outside j).busy + 1 = ∑ j, (s.op j).busy + 0 := by
        have hmove := sum_update OpPc.busy s.op i .outside
        rw [hi] at hmove
        exact hmove
      have hzero : ∑ j, (update s.op i .outside j).busy = 0 := by
        have hout := h.outstanding
        omega
      have hbusy := Finset.sum_eq_zero_iff.1 hzero j (Finset.mem_univ j)
      rw [update_of_ne hj] at hbusy
      exact (OpPc.waits_of_busy (h.ok j) hbusy (hidle j)).ok
  · rw [if_neg hlast]
    refine ⟨false, _, rfl, ?_⟩
    rw [if_neg Bool.false_ne_true]
    refine h.outside rfl rfl ?_ fun j _ => (h.ok j).mono hcom.symm fun _ hb => hb
    rw [hi]
    exact Int.sub_add_cancel _ 1

theorem Inv.commit {i : ι} {p q : Prog Storage Unit} {fs : Storage} (h : s.Inv)
    (hi : s.op i = .committing p) (hstep : p.step s.fs = some (q, fs)) :
    Inv { s with fs := fs, op := update s.op i (.committing q) } := by
  obtain ⟨hcom, hwrites⟩ : (OpPc.committing p).Ok s.fs.log := hi ▸ h.ok i
  obtain ⟨heff, hq⟩ := hwrites.step hstep
  have hlow : s.fs.Lowers fs := by
    rcases heff with rfl | hlow
    · exact ⟨rfl, rfl, rfl, Nat.le_refl _⟩
    · exact hlow
  have hroom := h.room
  have hn := hlow.n_le
  have hput : (s.put fs.log i (.committing q)).Inv := by
    refine h.put hlow.size ?_ ?_ ⟨hlow.committing.trans hcom, hq⟩
      (fun j hj => (h.others_wait hi hj).ok) fun _ q' j _ hj hcj => hj (h.one j i q' p hcj hi)
    · show fs.log.lh.n + ∑ j, (s.op j).owed + 0 + 2 ≤ LOGSIZE + (s.op i).owed
      omega
    · rw [hlow.outstanding, hi]
      rfl
  exact ⟨hput.size, hput.room, hput.outstanding, hput.ok, hput.one, hput.fault⟩

theorem Inv.commitDone {i : ι} {p : Prog Storage Unit} (h : s.Inv) (hi : s.op i = .committing p) :
    (s.wakeup.put { s.fs.log with committing := false } i .outside).Inv := by
  refine h.outside rfl rfl ?_ fun j hj => (h.others_wait hi hj).ok
  rw [hi]
  exact Int.add_zero _

theorem Inv.step {a : OpAct ι} (h : s.Inv) (hbound : s.Bounded a) (hroom : s.Room a)
    (hs : s.step a s') : s'.Inv := by
  have hno : s.NoStray := by
    intro i b data hi
    have hok := h.ok i
    rwa [hi] at hok
  cases stepped_of_step hbound.inside hno hs with
  | beginOp hpc hbegin =>
    refine h.beginOp ?_ hbegin (hroom (by rw [hbegin]; rfl))
    rcases hpc with hpc | hpc
    · rw [hpc]
      trivial
    · rw [hpc]
      trivial
  | sleeps hpc hbegin =>
    refine h.sleeps ?_
    rcases hpc with hpc | hpc
    · rw [hpc]
      trivial
    · rw [hpc]
      trivial
  | refused hi hcheck =>
    rw [h.checkWrite hi] at hcheck
    cases hcheck
  | logWrite hi hcheck =>
    rename_i i done b data
    apply h.logWrite hi data
    have hallow : (OpPc.running done).allows b = true := hi ▸ hbound
    simpa [OpPc.allows] using hallow
  | record hi hrec =>
    obtain ⟨lh', hrec', hput⟩ := h.record hi
    cases hrec.symm.trans hrec'
    exact ⟨hput.size, hput.room, hput.outstanding, hput.ok, hput.one, hput.fault⟩
  | overflow hi hrec =>
    obtain ⟨lh', hrec', -⟩ := h.record hi
    rw [hrec] at hrec'
    cases hrec'
  | endPanics hi hend =>
    obtain ⟨last, log, hend', -⟩ := h.endOp hi
    rw [hend] at hend'
    cases hend'
  | endOp hi hend =>
    obtain ⟨last', log', hend', hput⟩ := h.endOp hi
    rw [hend] at hend'
    obtain ⟨rfl, rfl⟩ := Prod.mk.inj (Except.ok.inj hend')
    exact hput
  | commit hi hp => exact h.commit hi hp
  | commitDone hi => exact h.commitDone hi

omit [DecidableEq ι] in
theorem Start.inv (h : s.Start) : s.Inv := by
  refine ⟨by rw [h.log]; rfl, ?_, ?_, fun i => ?_, fun i j p q hi => ?_, h.fault⟩
  · rw [h.log, Finset.sum_eq_zero fun i _ => by rw [h.op i]; rfl]
    decide
  · rw [h.log, Finset.sum_eq_zero fun i _ => by rw [h.op i]; rfl]
    rfl
  · rw [h.op i]
    trivial
  · rw [h.op i] at hi
    cases hi

/-- For any number of processes and any interleaving of operations that log at most `MAXOPBLOCKS`
distinct blocks each, on the log that `mkfs` makes: in a run in which every operation that
`begin_op` lets in finds room, no `log_write` panics, and neither does `end_op`. -/
theorem no_fault_of_room {s₀ : Ops ι} (h0 : s₀.Start) {π : List (OpAct ι × Ops ι)}
    (h : IsRun step s₀ π) (hbound : Meets Bounded s₀ π) (hroom : Meets Room s₀ π) :
    Along (fun π => (last s₀ π).fault = none) π := by
  have hboth : Meets (fun s a => s.Bounded a ∧ s.Room a) s₀ π := hbound.and hroom
  have hinv : Along (fun π => (last s₀ π).Inv) π := by
    refine h.along_of_meets h0.inv ?_ hboth
    rintro a s π hI ⟨hb, hr⟩ hs
    exact hI.step hb hr hs
  exact hinv.mono fun _ hI => hI.fault

def next (s : Ops ι) (a : OpAct ι) : Option (Ops ι) := if s.fault = none then s.exec a else none

def three : Ops (Fin 3) where
  fs := ⟨fun _ _ => 0, fun _ => none, [], .init 2 LOGSIZE⟩
  op := fun _ => .outside
  fault := none

theorem three_start : three.Start := ⟨rfl, fun _ => rfl, rfl⟩

def twoOps : List (OpAct (Fin 3)) :=
  [.beginOp 0, .logWrite 0 100 fun _ => 1, .beginOp 1, .record 0, .endOp 0, .endOp 1, .commit 1]

/-- The two operations find room. -/
theorem no_fault_of_room_twoOps :
    ∃ π, IsRun step three π ∧ Meets Bounded three π ∧ Meets Room three π ∧ π.length = 7 ∧
      Along (fun π => (last three π).fault = none) π := by
  have heval : (history (tick next) three [] twoOps).map
      (fun π => (decide (Meets Bounded three π), decide (Meets Room three π), π.length)) =
      some (true, true, 7) := by decide
  obtain ⟨π, hrun, heq⟩ := exists_run_tick_if heval
  simp only [Prod.mk.injEq, decide_eq_true_eq] at heq
  obtain ⟨hbound, hroom, hlength⟩ := heq
  exact ⟨π, hrun, hbound, hroom, hlength, no_fault_of_room three_start hrun hbound hroom⟩

def thirtyBlocks : List (OpAct (Fin 3)) :=
  [.beginOp 0, .beginOp 1, .beginOp 2] ++ (List.range 30).flatMap fun k =>
    [.logWrite (Fin.ofNat 3 (k / 10)) (100 + k) fun _ => 1, .record (Fin.ofNat 3 (k / 10))]

/-- `begin_op` lets three operations in, and the `30`th `log_write` panics. -/
theorem three_operations_panic :
    three.Start ∧ ∃ π, IsRun step three π ∧ Meets Bounded three π ∧
      (last three π).fault = some .tooBig := by
  refine ⟨three_start, ?_⟩
  -- All but the `record` of the last block, which is after the panic.
  have heval : (history (tick next) three [] thirtyBlocks.dropLast).map
      (fun π => (decide (Meets Bounded three π), (last three π).fault)) =
      some (true, some .tooBig) := by decide +kernel
  obtain ⟨π, hrun, heq⟩ := exists_run_tick_if heval
  simp only [Prod.mk.injEq, decide_eq_true_eq] at heq
  exact ⟨π, hrun, heq.1, heq.2⟩

end Ops

end Xv6
