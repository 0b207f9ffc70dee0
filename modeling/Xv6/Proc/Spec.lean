import Xv6.Proc.Table
import Mathlib.Tactic.Common

/-!
# What the process calls do to a slot

A call changes the slot of another process in few ways: it may wake it, mark it killed, or give it
another parent (`Proc.Woken`). Beyond that `fork` brings an unused slot to life with `container_id`
`-1`, `exit` makes its own slot a zombie, and `wait` frees the slot of a zombie or puts its own to
sleep. `Proc.Same` is what all of them but `fork`, `exit`, and the freeing of a slot keep.
-/

namespace Xv6

/-- The same process, and live exactly if it was. -/
structure Proc.Same (p q : Proc) : Prop where
  pid : q.pid = p.pid
  container_id : q.container_id = p.container_id
  live : q.Live ↔ p.Live

theorem Proc.Same.refl (p : Proc) : p.Same p := ⟨rfl, rfl, Iff.rfl⟩

theorem Proc.Same.trans {p q r : Proc} (h : p.Same q) (h' : q.Same r) : p.Same r :=
  ⟨h'.pid.trans h.pid, h'.container_id.trans h.container_id, h'.live.trans h.live⟩

/-- The process as before, but perhaps woken, killed, or with another parent. -/
structure Proc.Woken (p q : Proc) : Prop where
  pid : q.pid = p.pid
  container_id : q.container_id = p.container_id
  chan : q.chan = p.chan
  state : q.state = p.state ∨ p.state = .SLEEPING ∧ q.state = .RUNNABLE

theorem Proc.Woken.refl (p : Proc) : p.Woken p := ⟨rfl, rfl, rfl, .inl rfl⟩

theorem Proc.Woken.trans {p q r : Proc} (h : p.Woken q) (h' : q.Woken r) : p.Woken r := by
  refine ⟨h'.pid.trans h.pid, h'.container_id.trans h.container_id, h'.chan.trans h.chan, ?_⟩
  rcases h'.state with hs' | ⟨hs', hr'⟩
  · rw [hs']
    exact h.state
  · -- Asleep in between, so asleep before.
    rcases h.state with hs | ⟨-, hr⟩
    · exact .inr ⟨hs.symm.trans hs', hr'⟩
    · exact absurd (hr.symm.trans hs') (by decide)

theorem Proc.Woken.same {p q : Proc} (h : p.Woken q) : p.Same q := by
  refine ⟨h.pid, h.container_id, ?_⟩
  rcases h.state with hs | ⟨hs, hr⟩
  · rw [Proc.Live, Proc.Live, hs]
  · simp [Proc.Live, hs, hr]

theorem Proc.Woken.sleeping {p q : Proc} (h : p.Woken q) (hq : q.state = .SLEEPING) :
    p.state = .SLEEPING := by
  rcases h.state with hs | ⟨hs, -⟩
  · exact hs.symm.trans hq
  · exact hs

namespace Ptable

@[simp] theorem setProc_self (t : Ptable) (i : Fin NPROC) (p : Proc) :
    (t.setProc i p).proc i = p := by
  simp [setProc]

theorem setProc_of_ne (t : Ptable) {i j : Fin NPROC} (p : Proc) (h : j ≠ i) :
    (t.setProc i p).proc j = t.proc j := by
  simp [setProc, h]

theorem rel_setProc {R : Proc → Proc → Prop} (hrefl : ∀ p, R p p) {t : Ptable} {i : Fin NPROC}
    {p : Proc} (h : R (t.proc i) p) (j : Fin NPROC) : R (t.proc j) ((t.setProc i p).proc j) := by
  by_cases hj : j = i
  · subst hj
    rw [setProc_self]
    exact h
  · rw [setProc_of_ne t p hj]
    exact hrefl _

theorem find_some {t : Ptable} {test : Proc → Bool} {i : Fin NPROC} (h : t.find test = some i) :
    test (t.proc i) = true := by
  simpa using List.find?_some h

theorem wakeup1_woken (t : Ptable) (chan : Chan) (i : Fin NPROC) :
    (t.proc i).Woken ((t.wakeup1 chan).proc i) := by
  simp only [wakeup1]
  split
  · rename_i h
    exact ⟨rfl, rfl, rfl, .inr ⟨h.1, rfl⟩⟩
  · exact .refl _

theorem wakeup1_not_sleeping {t : Ptable} {chan : Chan} {i : Fin NPROC}
    (h : (t.proc i).chan = some chan) : ((t.wakeup1 chan).proc i).state ≠ .SLEEPING := by
  simp only [wakeup1, h, and_true]
  split
  · simp
  · rename_i hs
    exact hs

theorem reparent_woken (t : Ptable) (cur i : Fin NPROC) :
    (t.proc i).Woken ((t.reparent cur).proc i) := by
  unfold reparent
  -- Over the slots that the loop has still to look at.
  generalize List.finRange NPROC = l
  induction l generalizing t with
  | nil => exact .refl _
  | cons j l ih =>
    simp only [List.foldl_cons]
    refine Proc.Woken.trans ?_ (ih _)
    split
    · have hset : ∀ i, (t.proc i).Woken
          ((t.setProc j { t.proc j with parent := some t.initproc }).proc i) :=
        rel_setProc .refl ⟨rfl, rfl, rfl, .inl rfl⟩
      split
      · exact (hset i).trans (wakeup1_woken _ _ _)
      · exact hset i
    · exact .refl _

theorem allocproc_spec (kalloc : Bool) (t : Ptable) :
    (t.allocproc kalloc).1 = none ∧
        (∀ j, (t.allocproc kalloc).2.proc j = t.proc j ∨
          (t.proc j).state = .UNUSED ∧ ((t.allocproc kalloc).2.proc j).state = .UNUSED) ∨
      ∃ i, (t.allocproc kalloc).1 = some i ∧ (t.proc i).state = .UNUSED ∧
        ((t.allocproc kalloc).2.proc i).container_id = -1 ∧
        ∀ j, j ≠ i → (t.allocproc kalloc).2.proc j = t.proc j := by
  unfold allocproc
  cases hfind : t.find (fun p => p.state = .UNUSED) with
  | none => exact .inl ⟨rfl, fun j => .inl rfl⟩
  | some i =>
    have hi : (t.proc i).state = .UNUSED := by simpa using find_some hfind
    cases kalloc with
    | true =>
      refine .inr ⟨i, rfl, hi, by simp [setProc], fun j hj => ?_⟩
      simp [setProc, hj]
    | false =>
      refine .inl ⟨rfl, fun j => ?_⟩
      by_cases hj : j = i
      · subst hj
        exact .inr ⟨hi, by simp [setProc]⟩
      · exact .inl (by simp [setProc, hj])

theorem fork_spec (kalloc copyuvm : Bool) (cur : Fin NPROC) (t : Ptable) (j : Fin NPROC) :
    (t.fork kalloc copyuvm cur).2.proc j = t.proc j ∨
      (t.proc j).state = .UNUSED ∧
        (((t.fork kalloc copyuvm cur).2.proc j).state = .UNUSED ∨
          ((t.fork kalloc copyuvm cur).2.proc j).container_id = -1) := by
  unfold fork
  have hspec := allocproc_spec kalloc t
  generalize t.allocproc kalloc = r at hspec
  obtain ⟨o, u⟩ := r
  rcases hspec with ⟨rfl, hall⟩ | ⟨i, rfl, hi, hid, hother⟩
  · rcases hall j with h | ⟨h, h'⟩
    · exact .inl h
    · exact .inr ⟨h, .inl h'⟩
  · by_cases hj : j = i
    · subst hj
      refine .inr ⟨hi, ?_⟩
      cases copyuvm with
      | true => exact .inr (by simpa using hid)
      | false => exact .inl (by simp)
    · apply Or.inl
      rw [← hother j hj]
      cases copyuvm <;> simp [setProc_of_ne _ _ hj]

theorem exit_spec {cur : Fin NPROC} {t t' : Ptable} (h : t.exit cur = some t') :
    (∀ j, j ≠ cur → (t.proc j).Woken (t'.proc j)) ∧ (t'.proc cur).state = .ZOMBIE := by
  unfold exit at h
  split at h
  · cases h
  · cases h
    refine ⟨fun j hj => ?_, by simp⟩
    rw [setProc_of_ne _ _ hj]
    refine Proc.Woken.trans ?_ (reparent_woken _ _ _)
    split
    · exact wakeup1_woken _ _ _
    · exact .refl _

theorem wait_spec (cur : Fin NPROC) (t : Ptable) (j : Fin NPROC) :
    (t.wait cur).2.proc j = t.proc j ∨
      (t.proc j).state = .ZOMBIE ∧ ((t.wait cur).2.proc j).state = .UNUSED ∨
      j = cur ∧ (t.wait cur).2.proc j =
        { t.proc j with chan := some (.proc cur), state := .SLEEPING } := by
  unfold wait
  cases hfind : t.find (fun p => p.parent = some cur ∧ p.state = .ZOMBIE) with
  | some i =>
    have hi : (t.proc i).parent = some cur ∧ (t.proc i).state = .ZOMBIE := by
      simpa using find_some hfind
    by_cases hj : j = i
    · subst hj
      exact .inr (.inl ⟨hi.2, by simp⟩)
    · exact .inl (setProc_of_ne _ _ hj)
  | none =>
    simp only
    split
    · exact .inl rfl
    · by_cases hj : j = cur
      · subst hj
        exact .inr (.inr ⟨rfl, setProc_self _ _ _⟩)
      · exact .inl (setProc_of_ne _ _ hj)

theorem kill_woken (pid : ℤ) (t : Ptable) (j : Fin NPROC) :
    (t.proc j).Woken ((t.kill pid).2.proc j) := by
  unfold kill
  cases hfind : t.find (fun p => p.pid = pid) with
  | none => exact .refl _
  | some i =>
    refine rel_setProc .refl ?_ j
    simp only
    split
    · rename_i h
      exact ⟨rfl, rfl, rfl, .inr ⟨h, rfl⟩⟩
    · exact ⟨rfl, rfl, rfl, .inl rfl⟩

theorem userinit_container_id :
    ∀ i, (userinit.proc i).Live → (userinit.proc i).container_id = -1 := by
  decide

end Ptable

end Xv6
