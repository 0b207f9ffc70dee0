import Xv6.Message.SendRecv
import Xv6.Proc.Tree

/-!
# Which message queue `send` and `recv` use

The queue of a process is `msg_queue[pid-1]`, an array of `NPROC` queues, while pids come from a
counter that is never set back. `send` looks the receiver up by its pid, in slots that need not be
in use; if there is none, the loop ends past the table, and whatever lies there is taken for a
`struct proc`.

As long as no more than `NPROC` pids have been handed out, `recv` uses a queue of its own and in the
array, and `send` is right exactly about the pids of processes that exist.
-/

namespace Xv6

open Run

def Ptable.lookup (t : Ptable) (past : Proc) (rec_pid : ℤ) : Proc :=
  match t.find (fun p => p.pid = rec_pid) with
  | some i => t.proc i
  | none => past

def Ptable.send (t : Ptable) (past : Proc) (rec_pid : ℤ) (m : Msg) (qs : Fin NPROC → Mailbox) :
    Option (ℤ × (Fin NPROC → Mailbox)) := do
  let k := (t.lookup past rec_pid).pid - 1
  let b ← CArray.rd qs k
  let qs ← CArray.wr qs k (b.post m).2
  return ((b.post m).1, qs)

def Ptable.recvIndex (t : Ptable) (i : Fin NPROC) : ℤ := (t.proc i).pid - 1

def Ptable.SendsTo (t : Ptable) (past : Proc) (rec_pid : ℤ) (m : Msg) (qs : Fin NPROC → Mailbox)
    (i k : Fin NPROC) : Prop :=
  (t.proc i).state ≠ .UNUSED ∧ (t.proc i).pid = rec_pid ∧ t.recvIndex i = (k : ℕ) ∧
    t.send past rec_pid m qs = some (((qs k).post m).1, Function.update qs k ((qs k).post m).2)

def Ptable.SendsRight (t : Ptable) (past : Proc) (rec_pid : ℤ) : Prop :=
  ∀ m qs, (∃ i k, t.SendsTo past rec_pid m qs i k) ∨ t.send past rec_pid m qs = some (-1, qs)

def Ptable.HasQueue (t : Ptable) (i : Fin NPROC) : Prop :=
  0 ≤ t.recvIndex i ∧ t.recvIndex i < NPROC

def Ptable.Exists (t : Ptable) (pid : ℤ) : Prop :=
  ∃ i, (t.proc i).state ≠ .UNUSED ∧ (t.proc i).pid = pid

instance (t : Ptable) (i : Fin NPROC) : Decidable (t.HasQueue i) :=
  inferInstanceAs (Decidable (_ ∧ _))

/-- The queues of the processes are in the array and distinct, and `send` is right exactly about the
pids of processes. -/
structure Ptable.OwnQueues (t : Ptable) : Prop where
  hasQueue : ∀ i, (t.proc i).Live → t.HasQueue i
  distinct : ∀ i j, (t.proc i).Live → (t.proc j).Live → t.recvIndex i = t.recvIndex j → i = j
  sends : ∀ past rec_pid, t.SendsRight past rec_pid ↔ t.Exists rec_pid

/-! ## Pids -/

/-- The pids of all slots, in use or not: those in use are positive, and no two slots share one but
`0`. -/
structure Ptable.Named (t : Ptable) : Prop where
  nonneg : ∀ i, 0 ≤ (t.proc i).pid ∧ (t.proc i).pid < t.nextpid
  ne_zero : ∀ i, (t.proc i).state ≠ .UNUSED → (t.proc i).pid ≠ 0
  distinct : ∀ i j, (t.proc i).pid = (t.proc j).pid → (t.proc i).pid ≠ 0 → i = j
  next_le : 0 < t.nextpid ∧ t.nextpid ≤ NPROC + 1

namespace Ptable.Named

variable {t t' : Ptable}

theorem mono (h : t.Named) (hnext : t'.nextpid = t.nextpid)
    (hpid : ∀ i, (t'.proc i).pid = (t.proc i).pid ∨ (t'.proc i).pid = 0)
    (hused : ∀ i, (t'.proc i).state ≠ .UNUSED →
      (t.proc i).state ≠ .UNUSED ∧ (t'.proc i).pid = (t.proc i).pid) : t'.Named where
  nonneg i := by
    rw [hnext]
    rcases hpid i with heq | heq
    · rw [heq]
      exact h.nonneg i
    · rw [heq]
      exact ⟨le_rfl, h.next_le.1⟩
  ne_zero i hi := by
    rw [(hused i hi).2]
    exact h.ne_zero i (hused i hi).1
  distinct i j hij hi := by
    have hj : (t'.proc j).pid ≠ 0 := hij ▸ hi
    rw [(hpid i).resolve_right hi] at hij hi
    rw [(hpid j).resolve_right hj] at hij
    exact h.distinct i j hij hi
  next_le := hnext ▸ h.next_le

theorem take {np : Fin NPROC} {p : Proc} (h : t.Named) (hroom : t.nextpid ≤ NPROC)
    (hp : p.pid = t.nextpid) :
    Named { t.setProc np p with nextpid := Ptable.succ32 t.nextpid } := by
  have hslot : ∀ i, ({ t.setProc np p with nextpid := Ptable.succ32 t.nextpid } : Ptable).proc i =
      if i = np then p else t.proc i := Ptable.setProc_apply t np p
  have hsucc : Ptable.succ32 t.nextpid = t.nextpid + 1 := by
    have hN : (NPROC : ℤ) = 64 := rfl
    have hpos := h.next_le.1
    unfold Ptable.succ32
    rw [Int.bmod_def]
    omega
  have hpos := h.next_le.1
  refine ⟨fun i => ?_, fun i hi => ?_, fun i j hij hi => ?_, ?_⟩
  · show 0 ≤ _ ∧ _ < Ptable.succ32 t.nextpid
    rw [hslot, hsucc]
    have := h.nonneg i
    split <;> omega
  · rw [hslot] at hi ⊢
    split at hi
    · rename_i heq
      rw [if_pos heq]
      omega
    · rename_i hne
      rw [if_neg hne]
      exact h.ne_zero i hi
  · rw [hslot] at hi hij
    rw [hslot] at hij
    have hi' := h.nonneg i
    have hj' := h.nonneg j
    by_cases hinp : i = np <;> by_cases hjnp : j = np
    · rw [hinp, hjnp]
    · rw [if_pos hinp, if_neg hjnp] at hij
      omega
    · rw [if_neg hinp, if_pos hjnp] at hij
      omega
    · rw [if_neg hinp] at hi hij
      rw [if_neg hjnp] at hij
      exact h.distinct i j hij hi
  · show 0 < Ptable.succ32 t.nextpid ∧ Ptable.succ32 t.nextpid ≤ NPROC + 1
    rw [hsucc]
    omega

theorem hasQueue (h : t.Named) {i : Fin NPROC} (hi : (t.proc i).state ≠ .UNUSED) :
    t.HasQueue i := by
  have hpid := h.nonneg i
  have hne := h.ne_zero i hi
  have hnext := h.next_le.2
  unfold Ptable.HasQueue Ptable.recvIndex
  omega

theorem lookup_eq (h : t.Named) (past : Proc) {i : Fin NPROC} (hi : (t.proc i).state ≠ .UNUSED) :
    t.lookup past (t.proc i).pid = t.proc i := by
  unfold Ptable.lookup
  split
  · rename_i j hj
    have hpid : (t.proc j).pid = (t.proc i).pid := by simpa using Ptable.find_some hj
    rw [h.distinct i j hpid.symm (h.ne_zero i hi)]
  · rename_i hnone
    have hnot := List.find?_eq_none.1 hnone i (List.mem_finRange i)
    simp at hnot

theorem sendsTo (h : t.Named) (past : Proc) (m : Msg) (qs : Fin NPROC → Mailbox) {i : Fin NPROC}
    (hi : (t.proc i).state ≠ .UNUSED) : ∃ k, t.SendsTo past (t.proc i).pid m qs i k := by
  obtain ⟨k, hk⟩ := CArray.exists_fin (h.hasQueue hi).1 (h.hasQueue hi).2
  refine ⟨k, hi, rfl, hk, ?_⟩
  have hindex : (t.proc i).pid - 1 = (k : ℕ) := hk
  simp [Ptable.send, h.lookup_eq past hi, hindex]

theorem sendsRight_iff (h : t.Named) (past : Proc) (rec_pid : ℤ) :
    t.SendsRight past rec_pid ↔ t.Exists rec_pid := by
  constructor
  · intro hright
    -- Into empty queues no `send` fails.
    rcases hright (fun _ => 0) (fun _ => ⟨Queue.zero, false⟩) with ⟨i, k, hi, hpid, -⟩ | hfail
    · exact ⟨i, hi, hpid⟩
    · have hpost : ((⟨Queue.zero, false⟩ : Mailbox).post fun _ => 0).1 = 0 := rfl
      obtain ⟨b, hb, hrest⟩ := Option.bind_eq_some_iff.1 hfail
      obtain ⟨qs, -, heq⟩ := Option.bind_eq_some_iff.1 hrest
      have hret := (Prod.mk.inj (Option.some.inj heq)).1
      obtain rfl : (⟨Queue.zero, false⟩ : Mailbox) = b := by
        unfold CArray.rd at hb
        split at hb
        · exact Option.some.inj hb
        · cases hb
      exact absurd (hpost.symm.trans hret) (by decide)
  · rintro ⟨i, hi, rfl⟩ m qs
    exact .inl ⟨i, h.sendsTo past m qs hi⟩

theorem ownQueues (h : t.Named) : t.OwnQueues where
  hasQueue _ hi := h.hasQueue hi.1
  distinct i j hi _ hij := by
    unfold Ptable.recvIndex at hij
    exact h.distinct i j (by omega) (h.ne_zero i hi.1)
  sends := h.sendsRight_iff

end Ptable.Named

namespace Procs

def FewPids (s : Procs) (e : ProcEvent × Option ℤ) : Prop :=
  took e = true → s.ptable.nextpid ≤ NPROC

instance (s : Procs) (e : ProcEvent × Option ℤ) : Decidable (s.FewPids e) :=
  inferInstanceAs (Decidable (_ → _))

theorem named_step {s s' : Procs} {e : ProcEvent × Option ℤ} (h : s.ptable.Named)
    (hforking : s.Forking) (hfew : s.FewPids e) (hs : Stepped s e s') : s'.ptable.Named := by
  -- What a slot is before a quiet step if it is in use after it.
  have hstir : ∀ s' : Procs, s'.ptable.nextpid = s.ptable.nextpid → (∀ j, Stirred s s' j) →
      s'.ptable.Named := by
    refine fun s' hnext hslot => h.mono hnext (fun i => .inl (hslot i).pid)
      fun i hi => ⟨?_, (hslot i).pid⟩
    rcases (hslot i).state with heq | ⟨hst, -⟩
    · rwa [← heq]
    · rintro heq
      rw [heq] at hst
      exact absurd hst (by decide)
  cases hs with
  | stir e s' hquiet hinit hnext hslot hkilled => exact hstir s' hnext hslot
  | kill cur pid => exact hstir _ (Ptable.kill_nextpid ..) (kill_stirred s pid)
  | take cur np hrun hpc hnp => exact h.take (hfew rfl) rfl
  | stack cur np hpc => exact h
  | drop cur np a ha hpc =>
    refine h.mono rfl (fun i => .inl (Ptable.setState_pid ..))
      fun i hi => ⟨?_, Ptable.setState_pid ..⟩
    by_cases hinp : i = np
    · simp [hinp] at hi
    · rwa [put_ptable, Ptable.setState_of_ne _ _ hinp] at hi
  | adopt cur np hpc =>
    have hpid : ∀ i, ((s.ptable.setProc np { s.ptable.proc np with parent := some cur }).proc i).pid =
        (s.ptable.proc i).pid ∧
        ((s.ptable.setProc np { s.ptable.proc np with parent := some cur }).proc i).state =
        (s.ptable.proc i).state := by
      intro i
      rw [Ptable.setProc_apply]
      split
      · rename_i heq
        rw [heq]
        exact ⟨rfl, rfl⟩
      · exact ⟨rfl, rfl⟩
    exact h.mono rfl (fun i => .inl (hpid i).1) fun i hi => ⟨(hpid i).2 ▸ hi, (hpid i).1⟩
  | start cur np hpc =>
    refine h.mono rfl (fun i => .inl (Ptable.setState_pid ..))
      fun i hi => ⟨?_, Ptable.setState_pid ..⟩
    by_cases hinp : i = np
    · rw [hinp, hforking.embryo cur np (by rw [hpc]; rfl)]
      decide
    · rwa [put_ptable, Ptable.setState_of_ne _ _ hinp] at hi
  | exit cur t hrun hpc hexit =>
    refine h.mono hexit.nextpid (fun i => .inl (hexit.pid i)) fun i hi => ⟨?_, hexit.pid i⟩
    by_cases hicur : i = cur
    · rw [hicur, hrun]
      decide
    · rcases (hexit.woken i hicur).started with heq | ⟨hst, -⟩
      · rwa [← heq]
      · rintro heq
        rw [heq] at hst
        exact absurd hst (by decide)
  | reap cur i hrun hpc hpar hz =>
    refine h.mono rfl (fun j => ?_) fun j hj => ?_
    · by_cases hji : j = i
      · exact .inr (by simp [hji])
      · exact .inl (by simp [Ptable.setProc_of_ne _ _ hji])
    · by_cases hji : j = i
      · simp [hji] at hj
      · simpa [Ptable.setProc_of_ne _ _ hji] using hj

theorem boot_named : boot.ptable.Named := by
  refine ⟨by decide, by decide, ?_, by decide⟩
  have hinit : ∀ i, (boot.ptable.proc i).pid ≠ 0 → i = boot.ptable.initproc := by decide
  intro i j hij hi
  exact (hinit i hi).trans (hinit j (hij ▸ hi)).symm

/-- In every run of forks, exits, waits and kills in which no more than `NPROC` pids are handed out,
at every point: `recv` of a process uses a queue in the array that no other process uses, and `send`
to a pid uses the queue of its process exactly if there is a process with that pid. -/
theorem ownQueues_of_fewPids {π : List ((ProcEvent × Option ℤ) × Procs)} (h : IsRun step boot π)
    (hfew : Meets FewPids boot π) : Along (fun π => (last boot π).ptable.OwnQueues) π := by
  have hinv := h.along_of_meets
    (P := fun π => (last boot π).ptable.Named ∧ (last boot π).Forking) (C := FewPids)
    ⟨boot_named, forking_of_isRun (π := []) trivial⟩ ?_ hfew
  · exact hinv.mono fun π hπ => hπ.1.ownQueues
  · rintro e s π ⟨hnamed, hforking⟩ hC hs
    have hstepped := stepped_of_step hs
    exact ⟨named_step hnamed hforking hC hstepped, hforking.step hstepped⟩

theorem ownQueues_of_fewPids_fork :
    ∃ π, forks π = 1 ∧ IsRun step boot π ∧ Meets FewPids boot π ∧
      Along (fun π => (last boot π).ptable.OwnQueues) π := by
  have heval : (history (tickOut next) boot [] ([.dispatch init] ++ forkEvents init)).map
      (fun π => (forks π, decide (Meets FewPids boot π))) = some (1, true) := by decide +kernel
  obtain ⟨π, hrun, heq⟩ := exists_run_tickOut heval
  obtain ⟨hforks, hfew⟩ := Prod.mk.inj heq
  have hmeets := of_decide_eq_true hfew
  exact ⟨π, hforks, hrun, hmeets, ownQueues_of_fewPids hrun hmeets⟩

def failedFork (cur : Fin NPROC) : List ProcEvent :=
  [.act cur .allocproc, .act cur (.kalloc false)]

/-- After boot, `send` to pid 0 finds an unused slot and uses queue -1. And when 63 forks have failed
for want of memory, the child of the next one has pid 65, and its `recv` uses queue 64. -/
theorem send_and_recv_outside_array :
    ¬ boot.ptable.SendsRight Proc.zero 0 ∧
    ∃ π, IsRun step boot π ∧ ((last boot π).ptable.proc child).Live ∧
      ¬ (last boot π).ptable.HasQueue child := by
  refine ⟨fun hright => ?_, ?_⟩
  · obtain ⟨i, hi, hpid⟩ := (boot_named.sendsRight_iff Proc.zero 0).1 hright
    exact boot_named.ne_zero i hi hpid
  · have heval : (history (tickOut next) boot [] ([.dispatch init] ++
        (List.replicate 63 (failedFork init)).flatten ++ forkEvents init)).map
        (fun π => (decide ((last boot π).ptable.proc child).Live,
          decide ((last boot π).ptable.HasQueue child))) = some (true, false) := by decide +kernel
    obtain ⟨π, hrun, heq⟩ := exists_run_tickOut heval
    obtain ⟨hlive, hqueue⟩ := Prod.mk.inj heq
    exact ⟨π, hrun, of_decide_eq_true hlive, of_decide_eq_false hqueue⟩

end Procs

end Xv6
