import Xv6.Fs.CallsFollow
import Xv6.Fs.Held

/-!
# Between and within the calls

What the protocol gives for all runs of the calls, with no assumption on what the processes call.
When no call is in progress every count of references is exact again, whatever failed on the way.
And in the middle of the calls, no count is too small where the source tests it, and no process
reads or writes an inode that it has not locked.
-/

namespace Xv6.Fs

open Ghost Run

variable {n : ℕ} {s₀ : Disk} {π : List (Event × System)}

theorem keeps_base (hn : n ≤ 65536) :
    (protocol n False False).Keeps (Settled False) Ghost.idle Ghost.start (machine n)
      (fun _ _ => True) (Base n) where
  follows := prog_follows hn
  start _ _ _ hb hg hready := hb.start hg hready
  run := by
    rintro T G p o k r s - - hb - - ⟨ha, hu⟩ hr
    exact ⟨hb.answer ha hr (fun _ _ _ hA => hA.elim) fun _ _ hW => hW.elim, hb.step ha hu hr⟩
  done _ _ _ hb hs := hb.done hs

theorem Base.quiet {s : Disk} (h : Base n s fun _ => Ghost.idle) : s.Quiet n where
  ref i hi := by
    rw [h.counts.ref i hi]
    simp [refsOf, Ghost.idle]
  fileRef f := by
    rw [h.counts.file f]
    simp [filesOf, Ghost.idle]
  fileIp := h.counts.fileIp
  file := h.file
  unused := h.counts.unused
  cwd := h.cwd
  lock i := by
    -- whoever had locked it would say so
    refine Option.eq_none_iff_forall_ne_some.2 fun p hp => ?_
    have hlocked := ((h.holds p).lock i).1 hp
    simp [Locked, Ghost.idle] at hlocked
  valid := h.valid
  bound := h.bound

section

variable (hn : n ≤ 65536) (hq : s₀.Quiet n) (hrun : IsRun (Tasks.step (machine n)) (.idle s₀) π)
include hn hq hrun

theorem base_of_run : ∃ G, (protocol n False False).Within (Settled False) Ghost.idle
    (last (.idle s₀) π) G ∧ Base n (last (.idle s₀) π).shared G :=
  (keeps_base hn).run_invariant hq.base hrun (meets_of_forall fun _ _ => trivial)

/-- In every run from a quiet state the state is quiet whenever no call is in progress: a file has
as many references as there are descriptors for it, an inode as many as there are open files and
current directories for it, nothing is locked, and what is valid in the cache is allocated. -/
theorem quiet_between_calls (hidle : ∀ p, (last (.idle s₀) π).task p = none) :
    (last (.idle s₀) π).shared.Quiet n := by
  obtain ⟨G, hW, hb⟩ := base_of_run hn hq hrun
  obtain rfl : G = fun _ => Ghost.idle := funext fun p => hW.idle p (hidle p)
  exact hb.quiet

theorem allows_of_pending {p : Pid} {o : Op} (ho : (last (.idle s₀) π).pending p = some o) :
    ∃ G, Base n (last (.idle s₀) π).shared G ∧ allows n False False (G p) o := by
  obtain ⟨G, hW, hb⟩ := base_of_run hn hq hrun
  obtain ⟨k, hk⟩ := Tasks.task_of_pending ho
  exact ⟨G, hb, (hW.follows p _ hk).1.1⟩

end

def opening : List Event := calls init (.open ['/', 'f'] O_CREATE) 32

/-- Then process 1 fails to open a file in it. -/
theorem quiet_between_calls_open :
    ∃ π, IsRun (Tasks.step (machine 8)) (.idle boot) π ∧
      (last (.idle boot) π).shared.ref 2 = 1 ∧ (last (.idle boot) π).shared.Quiet 8 := by
  have heval : (Tasks.run (machine 8) boot
      (opening ++ calls child (.open ['/', 'f', '/', 'g'] O_RDONLY) 23)).map (fun π =>
        (decide (∀ p, ((last (Tasks.idle boot) π).task p).isNone = true),
          (last (Tasks.idle boot) π).shared.ref 2)) = some (true, 1) := by
    decide +kernel
  obtain ⟨π, hrun, heq⟩ := Tasks.exists_run heval
  obtain ⟨hidle, href⟩ := Prod.mk.inj heq
  refine ⟨π, hrun, href, quiet_between_calls (by decide) (quiet_boot (by decide)) hrun fun p => ?_⟩
  exact Option.isNone_iff_eq_none.1 (of_decide_eq_true hidle p)

def Sound (s : Disk) (p : Pid) : Op → Prop
  | .fileclose f => 0 < (s.file f).ref
  | .ilockRef i | .drop i => 0 < s.ref i
  | .holding i => s.lock i = some p ∧ 0 < s.ref i
  | _ => True

/-- In every run: `fileclose` finds a reference to the file, `ilock` and the end of `iput` find one
to the inode, and `iunlock` finds that the process holds the lock. So their checks do not panic. -/
theorem sound_of_run (hn : n ≤ 65536) (hq : s₀.Quiet n)
    (hrun : IsRun (Tasks.step (machine n)) (.idle s₀) π) (p : Pid) {o : Op}
    (ho : (last (.idle s₀) π).pending p = some o) : Sound (last (.idle s₀) π).shared p o := by
  obtain ⟨G, hb, ha⟩ := allows_of_pending hn hq hrun ho
  cases o with
  | fileclose f =>
    have hle := hb.counts.filesOf_le_ref p f
    have hpos := Multiset.one_le_count_iff_mem.2 ha.1
    simp only [filesOf] at hle
    exact show 0 < _ by omega
  | ilockRef i => exact hb.ref_pos (.inl ha)
  | drop i => exact hb.ref_pos (.inr ha.1)
  | holding i => exact ⟨((hb.holds p).lock i).2 ha.2, hb.ref_pos (.inl ha.1)⟩
  | _ => trivial

/-- Process 0 closes its file and is about to drop the reference to the inode. -/
theorem sound_of_run_close :
    ∃ π, IsRun (Tasks.step (machine 8)) (.idle boot) π ∧
      (last (.idle boot) π).pending init = some (.drop 2) ∧
      Sound (last (.idle boot) π).shared init (.drop 2) := by
  have heval : (Tasks.run (machine 8) boot
      (opening ++ begins init (.close ⟨0, by decide⟩) 5)).map (fun π =>
        (last (Tasks.idle boot) π).pending init) = some (some (.drop 2)) := by
    decide +kernel
  obtain ⟨π, hrun, hdrop⟩ := Tasks.exists_run heval
  exact ⟨π, hrun, hdrop, sound_of_run (by decide) (quiet_boot (by decide)) hrun init hdrop⟩

def Op.touches : Op → Option ℕ
  | .load i | .read i | .peek i | .free i | .setNlink i _ | .writei i _ _ _ => some i
  | _ => none

/-- In every run: the fields of an inode are read and written by the process that has locked it. -/
theorem locked_of_touches (hn : n ≤ 65536) (hq : s₀.Quiet n)
    (hrun : IsRun (Tasks.step (machine n)) (.idle s₀) π) (p : Pid) {o : Op} {i : ℕ}
    (ho : (last (.idle s₀) π).pending p = some o) (hi : o.touches = some i) :
    (last (.idle s₀) π).shared.lock i = some p := by
  obtain ⟨G, hb, ha⟩ := allows_of_pending hn hq hrun ho
  refine ((hb.holds p).lock i).2 ?_
  cases o with
  | load j | peek j =>
    cases hi
    exact ha.2.1
  | read j =>
    cases hi
    obtain ⟨c, hc⟩ := ha
    exact locked_of_known hc
  | free j =>
    cases hi
    obtain ⟨-, -, -, -, c, hc, -⟩ := ha
    exact locked_of_known hc
  | setNlink j k =>
    cases hi
    obtain ⟨-, c, hc, -⟩ := ha
    exact locked_of_known hc
  | writei dp off inum name =>
    cases hi
    obtain ⟨-, ⟨c, hc, -⟩, -⟩ := ha
    exact locked_of_known hc
  | _ => cases hi

/-- Process 0 is about to write the name of its file into the root directory. -/
theorem locked_of_touches_create :
    ∃ π, IsRun (Tasks.step (machine 8)) (.idle boot) π ∧
      (last (.idle boot) π).pending init = some (.writei 1 2 2 ['f']) ∧
      (last (.idle boot) π).shared.lock 1 = some init := by
  have heval : (Tasks.run (machine 8) boot (begins init (.open ['/', 'f'] O_CREATE) 20)).map
      (fun π => (last (Tasks.idle boot) π).pending init) =
      some (some (.writei 1 2 2 ['f'])) := by
    decide +kernel
  obtain ⟨π, hrun, hwrite⟩ := Tasks.exists_run heval
  exact ⟨π, hrun, hwrite,
    locked_of_touches (by decide) (quiet_boot (by decide)) hrun init hwrite rfl⟩

end Xv6.Fs
