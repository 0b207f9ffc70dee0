import Xv6.Fs.Calls
import Xv6.Lib.Wp

/-!
# Inodes, by a process alone

What `iget`, `ilock`, `iunlock`, `iput` and `dirlookup` do when nobody interrupts: the state that each
leaves, and when it panics.
-/

namespace Xv6.Fs

open Function

variable {n : ℕ} {p : Pid} {s s' : Disk} {i : ℕ} {D : String → Disk → Prop} {α : Type} {site : Site}

abbrev Ends (n : ℕ) (p : Pid) (D : String → Disk → Prop) (t : Sys α) (Q : α → Disk → Prop)
    (s : Disk) : Prop :=
  t.Wp (Op.perform n p) (· = ·) D Q s

theorem call_ends {o : Op} {Q : o.Answer → Disk → Prop} {r : o.Answer}
    (h : o.perform n p s = some (r, s')) (hQ : Q r s') : Ends n p D (call o) Q s := by
  rintro _ rfl
  exact ⟨r, s', h, hQ⟩

namespace Disk

def Room (n : ℕ) (s : Disk) (i : ℕ) : Prop := 0 < s.ref i ∨ s.cached n < NINODE

instance : Decidable (s.Room n i) := inferInstanceAs (Decidable (_ ∨ _))

def got (s : Disk) (i : ℕ) : Disk :=
  if 0 < s.ref i then s.setRef i (s.ref i + 1) else (s.setRef i 1).setValid i false

def Unused (s : Disk) (i : ℕ) : Prop :=
  s.valid i = true ∧ (s.inode i).nlink = 0 ∧ s.ref i = 1

instance : Decidable (s.Unused i) := inferInstanceAs (Decidable (_ ∧ _))

def put (s : Disk) (i : ℕ) : Disk :=
  (if s.Unused i then s.freeInode i else s).setRef i (s.ref i - 1)

theorem setLock_setLock {q : Option Pid} (h : s.lock i = none) :
    (s.setLock i q).setLock i none = s := by
  have hlock : update (update s.lock i q) i none = s.lock := by
    rw [update_idem, ← h, update_eq_self]
  show { s with lock := update (update s.lock i q) i none } = s
  rw [hlock]

theorem got_ref (s : Disk) (i : ℕ) :
    (s.got i).ref = update s.ref i (s.ref i + 1) := by
  unfold got
  split
  · rfl
  · rename_i h
    show update s.ref i 1 = _
    rw [Nat.eq_zero_of_not_pos h]

theorem got_inode (s : Disk) (i : ℕ) : (s.got i).inode = s.inode := by
  unfold got
  split <;> rfl

theorem got_lock (s : Disk) (i : ℕ) : (s.got i).lock = s.lock := by
  unfold got
  split <;> rfl

theorem got_valid (s : Disk) (i : ℕ) :
    (s.got i).valid = if 0 < s.ref i then s.valid else update s.valid i false := by
  unfold got
  split <;> rfl

theorem got_entGen (s : Disk) (i : ℕ) : (s.got i).entGen = s.entGen := by
  unfold got
  split <;> rfl

theorem setInode_self {x : Inode} : (s.setInode i x).inode i = x := update_self ..

theorem got_setInode {x : Inode} {j : ℕ} : (s.setInode i x).got j = (s.got j).setInode i x := by
  by_cases h : 0 < s.ref j
  · rw [got, got, if_pos h, if_pos (show 0 < (s.setInode i x).ref j from h)]
    rfl
  · rw [got, got, if_neg h, if_neg (show ¬ 0 < (s.setInode i x).ref j from h)]
    rfl

theorem setRef_setRef {m : ℕ} : (s.setRef i m).setRef i (s.ref i) = s := by
  have href : update (update s.ref i m) i (s.ref i) = s.ref := by
    rw [update_idem, update_eq_self]
  show { s with ref := update (update s.ref i m) i (s.ref i) } = s
  rw [href]

theorem put_ref (s : Disk) (i : ℕ) : (s.put i).ref = update s.ref i (s.ref i - 1) := by
  unfold put
  split <;> rfl

theorem put_lock : (s.put i).lock = s.lock := by
  unfold put
  split <;> rfl

theorem put_inode {j : ℕ} (h : ¬ (j = i ∧ s.Unused i)) : (s.put i).inode j = s.inode j := by
  unfold put
  split
  · rename_i hfree
    exact update_of_ne (fun hj => h ⟨hj, hfree⟩) ..
  · rfl

theorem put_valid {j : ℕ} (h : ¬ (j = i ∧ s.Unused i)) : (s.put i).valid j = s.valid j := by
  unfold put
  split
  · rename_i hfree
    exact update_of_ne (fun hj => h ⟨hj, hfree⟩) ..
  · rfl

theorem Unused.type_put (h : s.Unused i) : ((s.put i).inode i).type = .free := by
  rw [put, if_pos h]
  exact (congrArg Inode.type (update_self i _ s.inode)).trans rfl

theorem Unused.valid_put (h : s.Unused i) : (s.put i).valid i = false := by
  rw [put, if_pos h]
  exact update_self ..

theorem got_put (s : Disk) (i : ℕ) :
    (s.got i).put i = if 0 < s.ref i then s else s.setValid i false := by
  have href : (s.got i).ref i = s.ref i + 1 := by rw [got_ref, update_self]
  have hused : ¬ (s.got i).Unused i := by
    rintro ⟨hv, -, hone⟩
    have h0 : ¬ 0 < s.ref i := by omega
    rw [got, if_neg h0] at hv
    simp only [setValid, update_self] at hv
    cases hv
  rw [put, if_neg hused, href, Nat.add_sub_cancel]
  unfold got
  split
  · exact setRef_setRef
  · exact setRef_setRef (s := s.setValid i false)

end Disk

theorem iget_ends {Q : Unit → Disk → Prop} (hQ : s.Room n i → Q () (s.got i))
    (hD : ¬ s.Room n i → D "iget: no inodes" s) : Ends n p D (iget site i) Q s := by
  unfold iget
  unfold Disk.got at hQ
  refine Task.wp_bind.2 ?_
  by_cases hpos : 0 < s.ref i
  · rw [if_pos hpos] at hQ
    exact call_ends (if_pos hpos) (hQ (.inl hpos))
  · rw [if_neg hpos] at hQ
    by_cases hroom : s.cached n < NINODE
    · exact call_ends ((if_neg hpos).trans (if_pos hroom)) (hQ (.inr hroom))
    · refine call_ends ((if_neg hpos).trans (if_neg hroom)) (hD ?_)
      rintro (h | h)
      · exact hpos h
      · exact hroom h

theorem acquiresleep_ends {Q : Unit → Disk → Prop} (hlock : s.lock i = none)
    (hQ : Q () (s.setLock i (some p))) : Ends n p D (call (.acquiresleep site i)) Q s := by
  refine call_ends (r := ()) ?_ hQ
  unfold Op.perform
  dsimp only
  rw [hlock]

theorem ilock_ends {Q : Unit → Disk → Prop} (href : 1 ≤ s.ref i) (hlock : s.lock i = none)
    (hQ : s.valid i = true ∨ (s.inode i).type ≠ .free →
      Q () ((s.setLock i (some p)).setValid i true))
    (hD : ¬ (s.valid i = true ∨ (s.inode i).type ≠ .free) →
      D "ilock: no type" (s.setLock i (some p))) : Ends n p D (ilock i) Q s := by
  unfold ilock
  refine Task.wp_bind.2 (call_ends rfl ?_)
  rw [panicUnless, if_pos href]
  refine Task.wp_bind.2 (Task.wp_bind.2 (acquiresleep_ends hlock (Task.wp_bind.2 ?_)))
  by_cases hload : s.valid i = true ∨ (s.inode i).type ≠ .free
  · refine call_ends (if_pos hload) ?_
    rw [panicUnless, if_pos (by nofun)]
    exact hQ hload
  · refine call_ends (if_neg hload) ?_
    rw [panicUnless, if_neg (not_not.2 rfl)]
    exact hD hload

theorem iunlock_ends {Q : Unit → Disk → Prop} (href : 0 < s.ref i) (hlock : s.lock i = some p)
    (hQ : Q () (s.setLock i none)) : Ends n p D (iunlock site i) Q s := by
  unfold iunlock
  refine Task.wp_bind.2 (call_ends rfl ?_)
  rw [panicUnless, if_pos (decide_eq_true ⟨hlock, href⟩)]
  exact Task.wp_bind.2 (call_ends rfl hQ)

theorem iputFree_ends {valid : Bool} {ip : Inode} {Q : Unit → Disk → Prop}
    (hfree : valid = true ∧ ip.nlink = 0 ∧ s.ref i = 1 → Q () (s.freeInode i))
    (hkeep : ¬ (valid = true ∧ ip.nlink = 0 ∧ s.ref i = 1) → Q () s) :
    Ends n p D (iputFree i valid ip) Q s := by
  unfold iputFree
  split
  · rename_i hzero
    refine Task.wp_bind.2 (call_ends rfl ?_)
    split
    · rename_i hlast
      exact call_ends rfl (hfree ⟨hzero.1, hzero.2, hlast⟩)
    · rename_i hlast
      exact hkeep fun h => hlast h.2.2
  · rename_i hzero
    exact hkeep fun h => hzero ⟨h.1, h.2.1⟩

theorem iput_ends {Q : Unit → Disk → Prop} (hlock : s.lock i = none) (hQ : Q () (s.put i)) :
    Ends n p D (iput site i) Q s := by
  -- The lock is released, and the reference is dropped.
  have hend : ∀ s₁ : Disk, s₁.setLock i none = (if s.Unused i then s.freeInode i else s) →
      s₁.ref i = s.ref i → Ends n p D (do
        call (.releasesleep .other i)
        call (.drop i)) Q s₁ := by
    intro s₁ hs₁ href
    refine Task.wp_bind.2 (call_ends rfl (call_ends rfl ?_))
    show Q () ((s₁.setLock i none).setRef i (s₁.ref i - 1))
    rw [hs₁, href]
    exact hQ
  have hsame := s.setLock_setLock (q := some p) hlock
  unfold iput
  refine Task.wp_bind.2 (acquiresleep_ends hlock (Task.wp_bind.2 (call_ends rfl ?_)))
  refine Task.wp_bind.2 (iputFree_ends (fun hunused => hend _ ?_ rfl) fun hused => hend _ ?_ rfl)
  · rw [if_pos (show s.Unused i from hunused)]
    exact congrArg (Disk.freeInode · i) hsame
  · rw [if_neg (show ¬ s.Unused i from hused)]
    exact hsame

theorem iunlockput_ends {Q : Unit → Disk → Prop} (href : 0 < s.ref i) (hlock : s.lock i = some p)
    (hQ : Q () ((s.setLock i none).put i)) : Ends n p D (iunlockput site i) Q s :=
  Task.wp_bind.2 (iunlock_ends href hlock (iput_ends (update_self ..) hQ))

theorem dirlookup_ends {name : Name} {Q : Option (ℕ × ℕ) → Disk → Prop}
    (hdir : (s.inode i).type = .dir) (hnone : find name (s.inode i).ents = none → Q none s)
    (hsome : ∀ j off, find name (s.inode i).ents = some (j, off) → s.Room n j →
      Q (some (j, off)) (s.got j))
    (hD : ∀ j off, find name (s.inode i).ents = some (j, off) → ¬ s.Room n j →
      D "iget: no inodes" s) : Ends n p D (dirlookup site i name) Q s := by
  unfold dirlookup
  refine Task.wp_bind.2 (call_ends rfl ?_)
  rw [panicUnless, if_pos hdir]
  refine Task.wp_bind.2 ?_
  cases hfind : find name (s.inode i).ents with
  | none => exact hnone hfind
  | some x =>
    exact Task.wp_bind.2 (iget_ends (hsome x.1 x.2 hfind) (hD x.1 x.2 hfind))

theorem exec_iput_of_locked (h : s.lock i ≠ none) :
    (iput site i).exec (Op.perform n p) s = none := by
  obtain ⟨q, hq⟩ := Option.ne_none_iff_exists'.1 h
  have hwait : (Op.acquiresleep site i).perform n p s = none := by
    unfold Op.perform
    dsimp only
    rw [hq]
  unfold iput
  rw [Task.exec_bind]
  simp only [Task.call, Task.exec, hwait]
  rfl

end Xv6.Fs
