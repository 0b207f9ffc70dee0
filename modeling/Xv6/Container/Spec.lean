import Xv6.Container.Table
import Mathlib.Tactic.Common

/-!
# What the container calls do when they run alone

One specification for each call. A call either refuses and leaves the globals as they are, or makes
the change that `created`, `destroyed`, `joined`, or `freed` names. Nothing here assumes an
invariant beyond the range of `c_pointer`: the invariants of whole runs are derived from these in
`Container/LiveSet.lean` and `Container/Slots.lean`.
-/

namespace Xv6.Containers

open Function CArray Prog

variable {N P : ℕ}

/-! ## Accesses in range -/

@[simp] theorem exec_cPointer (s : Containers N P) : cPointer.exec s = some (s.c_pointer, s) := by
  simp [cPointer]

@[simp] theorem exec_setCPointer (v : ℤ) (s : Containers N P) :
    (setCPointer v).exec s = some (⟨⟩, { s with c_pointer := v }) := by
  simp [setCPointer]

@[simp] theorem exec_cActive (k : Fin N) (s : Containers N P) :
    (cActive (k : ℕ)).exec s = some (s.c_active k, s) := by
  simp [cActive]

@[simp] theorem exec_setCActive (k : Fin N) (v : Bool) (s : Containers N P) :
    (setCActive (k : ℕ) v).exec s =
      some (⟨⟩, { s with c_active := update s.c_active k v }) := by
  simp [setCActive]

@[simp] theorem exec_getAt {α : Type} (k : Fin N) (f : Container P → Option α)
    (s : Containers N P) :
    (getAt (k : ℕ) f).exec s = (f (s.container_table k)).map fun a => (a, s) := by
  simp [getAt]

@[simp] theorem exec_setAt (k : Fin N) (f : Container P → Option (Container P))
    (s : Containers N P) :
    (setAt (k : ℕ) f).exec s =
      (f (s.container_table k)).map fun c => (⟨⟩, s.setContainer k c) := by
  simp only [setAt, exec_set, upd_natCast]
  cases f (s.container_table k) <;> rfl

@[simp] theorem exec_processPointer (k : Fin N) (s : Containers N P) :
    (processPointer (k : ℕ)).exec s = some ((s.container_table k).process_pointer, s) := by
  simp [processPointer]

@[simp] theorem exec_processActive (k : Fin N) (j : Fin P) (s : Containers N P) :
    (processActive (k : ℕ) (j : ℕ)).exec s = some ((s.container_table k).process_active j, s) := by
  simp [processActive]

@[simp] theorem exec_processPid (k : Fin N) (j : Fin P) (s : Containers N P) :
    (processPid (k : ℕ) (j : ℕ)).exec s =
      some (((s.container_table k).process_table j).pid, s) := by
  simp [processPid]

@[simp] theorem exec_setProcessPointer (k : Fin N) (v : ℤ) (s : Containers N P) :
    (setProcessPointer (k : ℕ) v).exec s =
      some (⟨⟩, s.setContainer k { s.container_table k with process_pointer := v }) := by
  simp [setProcessPointer]

@[simp] theorem exec_setProcessActive (k : Fin N) (j : Fin P) (v : Bool) (s : Containers N P) :
    (setProcessActive (k : ℕ) (j : ℕ) v).exec s =
      some (⟨⟩, s.setContainer k { s.container_table k with
        process_active := update (s.container_table k).process_active j v }) := by
  simp [setProcessActive]

@[simp] theorem exec_setProcess (k : Fin N) (j : Fin P) (p : Proc) (s : Containers N P) :
    (setProcess (k : ℕ) (j : ℕ) p).exec s =
      some (⟨⟩, s.setContainer k { s.container_table k with
        process_table := update (s.container_table k).process_table j p }) := by
  simp [setProcess]

@[simp] theorem setContainer_container_table (s : Containers N P) (k : Fin N) (c : Container P) :
    (s.setContainer k c).container_table = update s.container_table k c := rfl

@[simp] theorem setContainer_c_active (s : Containers N P) (k : Fin N) (c : Container P) :
    (s.setContainer k c).c_active = s.c_active := rfl

@[simp] theorem setContainer_c_pointer (s : Containers N P) (k : Fin N) (c : Container P) :
    (s.setContainer k c).c_pointer = s.c_pointer := rfl

@[simp] theorem setContainer_setContainer (s : Containers N P) (k : Fin N) (c d : Container P) :
    (s.setContainer k c).setContainer k d = s.setContainer k d := by
  simp [setContainer]

@[simp] theorem exec_copyContainer (k : Fin N) (c : Container P) (s : Containers N P) :
    (copyContainer (k : ℕ) c).exec s = some (⟨⟩, s.setContainer k c) := by
  simp [copyContainer]

theorem exec_nextFree {n : ℕ} (flag : ℤ → Prog (Containers N P) Bool) {s : Containers N P}
    {a : Fin n → Bool} (hflag : ∀ j : Fin n, (flag (j : ℕ)).exec s = some (a j, s))
    (h1 : -1 ≤ s.c_pointer) (hn : s.c_pointer ≤ n) :
    ∃ r, (nextFree n flag).exec s = some (r, s) ∧
      ((r = -1 ∧ ∀ j : Fin n, ((j : ℕ) : ℤ) ≠ s.c_pointer → a j = true) ∨
        ∃ j : Fin n, r = (j : ℕ) ∧ ((j : ℕ) : ℤ) ≠ s.c_pointer ∧ a j = false) := by
  let t : ℤ → Bool := fun i => !(rd a i).getD true
  have ht : ∀ j : ℤ, 0 ≤ j → j < n →
      (do return !(← flag j) : Prog (Containers N P) Bool).exec s = some (t j, s) := by
    intro j h0 hj
    obtain ⟨k, rfl⟩ := exists_fin h0 hj
    simp [hflag, t]
  have ht_free : ∀ j : Fin n, t (j : ℕ) = true ↔ a j = false := by
    intro j
    simp [t]
  obtain ⟨r, hr, hfound⟩ := exec_search (pure (n : ℤ)) (n + 1) (s := s) (b := n) (t := t)
    (i := s.c_pointer + 1) (by simp) (fun j h hj => ht j (by omega) hj) (by omega)
  obtain ⟨r', hr', hfound'⟩ := exec_search cPointer (n + 1) (s := s) (b := s.c_pointer) (t := t)
    (i := 0) (by simp) (fun j h hj => ht j h (by omega)) (by omega)
  simp only [nextFree, exec_bind, exec_cPointer, Option.bind_some, hr]
  cases r with
  | some i =>
    obtain ⟨hi, hin, hti⟩ := hfound
    obtain ⟨j, rfl⟩ := exists_fin (by omega) hin
    exact ⟨(j : ℕ), rfl, .inr ⟨j, rfl, by omega, (ht_free j).1 hti⟩⟩
  | none =>
    simp only [exec_bind, hr', Option.bind_some]
    cases r' with
    | some i =>
      obtain ⟨hi, hic, hti⟩ := hfound'
      obtain ⟨j, rfl⟩ := exists_fin (n := n) hi (by omega)
      exact ⟨(j : ℕ), rfl, .inr ⟨j, rfl, by omega, (ht_free j).1 hti⟩⟩
    | none =>
      refine ⟨-1, rfl, .inl ⟨rfl, fun j hj => ?_⟩⟩
      have hlt := j.isLt
      by_contra hfree
      have hfalse : t (j : ℕ) = false := by
        rcases lt_or_gt_of_ne hj with hj | hj
        · exact hfound' _ (by omega) hj
        · exact hfound _ (by omega) (by omega)
      rw [(ht_free j).2 (by simpa using hfree)] at hfalse
      cases hfalse

/-! ## The calls -/

def Live (s : Containers N P) (id : ℤ) : Prop := ∃ k : Fin N, id = (k : ℕ) ∧ s.c_active k = true

def created (s : Containers N P) (k : Fin N) (c : Container P) (ptr : ℤ) : Containers N P :=
  { container_table := update s.container_table k (initContainer c (k : ℕ))
    c_active := update s.c_active k true
    c_pointer := ptr }

def destroyed (s : Containers N P) (k : Fin N) : Containers N P :=
  { s with
    c_active := update s.c_active k false
    c_pointer := if s.c_pointer = -1 then (k : ℕ) else s.c_pointer }

def member (s : Containers N P) (p : Proc) (id : ℤ) : Proc :=
  { p with container_id := s.c_pointer, cont := some id }

def joined (s : Containers N P) (k : Fin N) (j : Fin P) (p : Proc) (hint : ℤ) : Containers N P :=
  s.setContainer k
    { s.container_table k with
      process_table := update (s.container_table k).process_table j (s.member p (k : ℕ))
      process_active := update (s.container_table k).process_active j true
      process_pointer := hint }

def freed (s : Containers N P) (k : Fin N) (j : Fin P) : Containers N P :=
  s.setContainer k
    { s.container_table k with
      process_active := update (s.container_table k).process_active j false }

@[simp] theorem created_c_active (s : Containers N P) (k : Fin N) (c : Container P) (ptr : ℤ) :
    (s.created k c ptr).c_active = update s.c_active k true := rfl

@[simp] theorem created_c_pointer (s : Containers N P) (k : Fin N) (c : Container P) (ptr : ℤ) :
    (s.created k c ptr).c_pointer = ptr := rfl

@[simp] theorem created_container_table (s : Containers N P) (k : Fin N) (c : Container P)
    (ptr : ℤ) : (s.created k c ptr).container_table =
      update s.container_table k (initContainer c (k : ℕ)) := rfl

@[simp] theorem destroyed_c_active (s : Containers N P) (k : Fin N) :
    (s.destroyed k).c_active = update s.c_active k false := rfl

@[simp] theorem destroyed_container_table (s : Containers N P) (k : Fin N) :
    (s.destroyed k).container_table = s.container_table := rfl

@[simp] theorem joined_c_active (s : Containers N P) (k : Fin N) (j : Fin P) (p : Proc) (h : ℤ) :
    (s.joined k j p h).c_active = s.c_active := rfl

@[simp] theorem joined_c_pointer (s : Containers N P) (k : Fin N) (j : Fin P) (p : Proc) (h : ℤ) :
    (s.joined k j p h).c_pointer = s.c_pointer := rfl

@[simp] theorem freed_c_active (s : Containers N P) (k : Fin N) (j : Fin P) :
    (s.freed k j).c_active = s.c_active := rfl

@[simp] theorem freed_c_pointer (s : Containers N P) (k : Fin N) (j : Fin P) :
    (s.freed k j).c_pointer = s.c_pointer := rfl

theorem joined_slot_of_ne {s : Containers N P} {k k' : Fin N} {j j' : Fin P} {p : Proc} (hint : ℤ)
    (h : ¬ (k = k' ∧ j = j')) :
    ((s.joined k' j' p hint).container_table k).process_active j =
        (s.container_table k).process_active j ∧
      ((s.joined k' j' p hint).container_table k).process_table j =
        (s.container_table k).process_table j := by
  by_cases hk : k = k'
  · have hj : j ≠ j' := fun hj => h ⟨hk, hj⟩
    subst hk
    simp [joined, hj]
  · simp [joined, hk]

theorem createContainer_refused {s : Containers N P} (c : Container P) (h : s.c_pointer = -1) :
    (createContainer c).exec s = some (-1, s) := by
  simp [createContainer, h]

theorem createContainer_spec {s : Containers N P} (c : Container P) {k : Fin N}
    (h : s.c_pointer = (k : ℕ)) :
    ∃ ptr, (createContainer c).exec s = some (((k : ℕ) : ℤ), s.created k c ptr) ∧
      ((ptr = -1 ∧ ∀ i, i ≠ k → s.c_active i = true) ∨
        ∃ i, i ≠ k ∧ ptr = (i : ℕ) ∧ s.c_active i = false) := by
  have hk : ((k : ℕ) : ℤ) ≠ -1 := by omega
  -- The scans run on the table with `k` already in use.
  have hexec : (createContainer c).exec s =
      ((nextFree N cActive).exec (s.created k c (k : ℕ))).bind fun x =>
        some (((k : ℕ) : ℤ), { x.2 with c_pointer := x.1 }) := by
    simp [createContainer, h, hk, created, setContainer]
  have hptr : (s.created k c (k : ℕ)).c_pointer = (k : ℕ) := rfl
  obtain ⟨ptr, hscan, hcase⟩ := exec_nextFree (n := N) cActive
    (s := s.created k c (k : ℕ)) (fun j => exec_cActive j _) (by omega) (by omega)
  rw [hscan] at hexec
  refine ⟨ptr, hexec, ?_⟩
  rw [hptr] at hcase
  rcases hcase with ⟨hm1, hall⟩ | ⟨i, hi, hik, hfree⟩
  · refine .inl ⟨hm1, fun i hik => ?_⟩
    have := hall i (by omega)
    rwa [created_c_active, update_of_ne hik] at this
  · have hik' : i ≠ k := by rintro rfl; exact hik rfl
    rw [created_c_active, update_of_ne hik'] at hfree
    exact .inr ⟨i, hik', hi, hfree⟩

theorem exec_guard {s : Containers N P} {id : ℤ} (rest : Prog (Containers N P) ℤ)
    (h : ¬ s.Live id) :
    (if id < 0 ∨ id ≥ N then pure (-1) else do
      let active ← cActive id
      if (!active) = true then pure (-1) else rest : Prog (Containers N P) ℤ).exec s =
        some (-1, s) := by
  by_cases hid : id < 0 ∨ id ≥ N
  · rw [if_pos hid]
    rfl
  · obtain ⟨k, rfl⟩ := exists_fin (n := N) (i := id) (by omega) (by omega)
    have hk : s.c_active k = false := by
      by_contra hne
      exact h ⟨k, rfl, by simpa using hne⟩
    rw [if_neg hid]
    simp [hk]

theorem not_outside (k : Fin N) : ¬ (((k : ℕ) : ℤ) < 0 ∨ ((k : ℕ) : ℤ) ≥ N) := by
  have := k.isLt
  omega

theorem destroyContainer_refused {s : Containers N P} {id : ℤ} (h : ¬ s.Live id) :
    (destroyContainer id).exec s = some (-1, s) :=
  exec_guard _ h

theorem destroyContainer_spec {s : Containers N P} {k : Fin N} (h : s.c_active k = true) :
    (destroyContainer (k : ℕ)).exec s = some (0, s.destroyed k) := by
  unfold destroyContainer destroyed
  rw [if_neg (not_outside k)]
  simp only [exec_bind, exec_cActive, Option.bind_some, h, Bool.not_true, Bool.false_eq_true,
    if_false, exec_setCActive, exec_cPointer, exec_ite, exec_setCPointer, pure_eq_ret, exec_ret]
  split <;> rfl

theorem joinContainer_refused {s : Containers N P} (p : Proc) {id : ℤ} (h : ¬ s.Live id) :
    (joinContainer p id).exec s = some (-1, s) :=
  exec_guard _ h

theorem joinContainer_full {s : Containers N P} (p : Proc) {k : Fin N}
    (hk : s.c_active k = true) (hp : (s.container_table k).process_pointer = -1) :
    (joinContainer p (k : ℕ)).exec s = some (-1, s) := by
  unfold joinContainer
  rw [if_neg (not_outside k)]
  simp [hk, hp]

theorem joinContainer_spec {s : Containers N P} (p : Proc) {k : Fin N} {j : Fin P}
    (hk : s.c_active k = true) (hj : (s.container_table k).process_pointer = (j : ℕ))
    (h1 : -1 ≤ s.c_pointer) (hP : s.c_pointer ≤ P) :
    ∃ hint, (joinContainer p (k : ℕ)).exec s = some (0, s.joined k j p hint) ∧
      ((hint = -1 ∧ ∀ i, i ≠ j → ((i : ℕ) : ℤ) ≠ s.c_pointer →
          (s.container_table k).process_active i = true) ∨
        ∃ i, i ≠ j ∧ ((i : ℕ) : ℤ) ≠ s.c_pointer ∧ hint = (i : ℕ) ∧
          (s.container_table k).process_active i = false) := by
  have hj' : ¬ ((j : ℕ) : ℤ) = -1 := by omega
  -- The scans run with slot `j` already filled.
  have hexec : (joinContainer p (k : ℕ)).exec s =
      ((nextFree P (processActive (k : ℕ))).exec (s.joined k j p (j : ℕ))).bind fun x =>
        some (0, x.2.setContainer k { x.2.container_table k with process_pointer := x.1 }) := by
    unfold joinContainer
    rw [if_neg (not_outside k)]
    simp [hk, hj, hj', joined, member]
  obtain ⟨hint, hscan, hcase⟩ := exec_nextFree (n := P) (processActive (k : ℕ))
    (s := s.joined k j p (j : ℕ)) (fun i => exec_processActive k i _) h1 hP
  rw [hscan, Option.bind_some] at hexec
  refine ⟨hint, by simpa [joined] using hexec, ?_⟩
  have hflag : ∀ i, ((s.joined k j p (j : ℕ)).container_table k).process_active i =
      update (s.container_table k).process_active j true i := by
    intro i
    simp [joined]
  have hptr : (s.joined k j p (j : ℕ)).c_pointer = s.c_pointer := rfl
  simp only [hflag, hptr] at hcase
  rcases hcase with ⟨hm1, hall⟩ | ⟨i, hi, hic, hfree⟩
  · refine .inl ⟨hm1, fun i hij hic => ?_⟩
    have := hall i hic
    rwa [update_of_ne hij] at this
  · have hij : i ≠ j := by rintro rfl; simp at hfree
    rw [update_of_ne hij] at hfree
    exact .inr ⟨i, hij, hic, hi, hfree⟩

theorem leaveContainer_refused {s : Containers N P} {p : Proc} (h : ¬ s.Live p.container_id) :
    (leaveContainer p).exec s = some (-1, s) :=
  exec_guard _ h

theorem leaveContainer_spec {s : Containers N P} {p : Proc} {k : Fin N}
    (hid : p.container_id = (k : ℕ)) (hk : s.c_active k = true) :
    ((leaveContainer p).exec s = some (0, s) ∧
        ∀ j, (s.container_table k).process_active j = true →
          ((s.container_table k).process_table j).pid ≠ p.pid) ∨
      ∃ j, (leaveContainer p).exec s = some (0, s.freed k j) ∧
        (s.container_table k).process_active j = true ∧
        ((s.container_table k).process_table j).pid = p.pid := by
  -- The test of the loop, as a function of the slot.
  let a : Fin P → Bool := fun j =>
    decide (((s.container_table k).process_table j).pid = p.pid) &&
      (s.container_table k).process_active j
  let t : ℤ → Bool := fun i => (rd a i).getD false
  have ht : ∀ i : ℤ, 0 ≤ i → i < P → (do
      if (← processPid (k : ℕ) i) = p.pid then processActive (k : ℕ) i else return false :
        Prog (Containers N P) Bool).exec s = some (t i, s) := by
    intro i h0 hi
    obtain ⟨j, rfl⟩ := exists_fin h0 hi
    by_cases hpid : ((s.container_table k).process_table j).pid = p.pid <;> simp [hpid, t, a]
  obtain ⟨r, hr, hfound⟩ := exec_search (pure (P : ℤ)) (P + 1) (s := s) (b := P) (t := t)
    (i := 0) (by simp) ht (by omega)
  cases r with
  | some i =>
    obtain ⟨h0, hi, hti⟩ := hfound
    obtain ⟨j, rfl⟩ := exists_fin h0 hi
    have hj : ((s.container_table k).process_table j).pid = p.pid ∧
        (s.container_table k).process_active j = true := by simpa [t, a] using hti
    refine .inr ⟨j, ?_, hj.2, hj.1⟩
    unfold leaveContainer
    rw [hid, if_neg (not_outside k)]
    simp only [exec_bind, exec_cActive, Option.bind_some, hk, Bool.not_true, Bool.false_eq_true,
      if_false, hr, exec_setProcessActive]
    rfl
  | none =>
    refine .inl ⟨?_, fun j hact hpid => ?_⟩
    · unfold leaveContainer
      rw [hid, if_neg (not_outside k)]
      simp only [exec_bind, exec_cActive, Option.bind_some, hk, Bool.not_true, Bool.false_eq_true,
        if_false, hr]
      rfl
    · have := hfound (j : ℕ) (by omega) (by have := j.isLt; omega)
      simp [t, a, hact, hpid] at this

/-! ## Frames -/

theorem setAt_keeps (id : ℤ) (f : Container P → Option (Container P)) :
    (setAt (N := N) id f).Keeps fun s => (s.c_active, s.c_pointer) := by
  refine ⟨fun s s' h => ?_, trivial⟩
  obtain ⟨t, -, rfl⟩ := Option.map_eq_some_iff.1 h
  rfl

theorem nextFree_reads (n : ℕ) {flag : ℤ → Prog (Containers N P) Bool} (h : ∀ i, (flag i).Reads) :
    (nextFree n flag).Reads := by
  have hflag : ∀ i, (do return !(← flag i) : Prog (Containers N P) Bool).Reads :=
    fun i => (h i).bind fun _ => trivial
  refine Reads.get.bind fun i => (Reads.search (Reads.pure _) hflag _ _).bind fun r => ?_
  cases r with
  | some i => trivial
  | none =>
    refine (Reads.search Reads.get hflag _ _).bind fun r => ?_
    cases r <;> trivial

theorem joinContainer_keeps (p : Proc) (id : ℤ) :
    (joinContainer (N := N) (P := P) p id).Keeps fun s => (s.c_active, s.c_pointer) := by
  refine Writes.ite trivial (Reads.get.writes.bind fun a => Writes.ite trivial ?_)
  refine Reads.get.writes.bind fun j => Writes.ite trivial (Reads.get.writes.bind fun c => ?_)
  refine (setAt_keeps _ _).bind fun _ => (setAt_keeps _ _).bind fun _ => ?_
  exact (nextFree_reads P fun i => Reads.get).writes.bind fun r =>
    (setAt_keeps _ _).bind fun _ => trivial

theorem leaveContainer_keeps (p : Proc) :
    (leaveContainer (N := N) (P := P) p).Keeps fun s => (s.c_active, s.c_pointer) := by
  refine Writes.ite trivial (Reads.get.writes.bind fun a => Writes.ite trivial ?_)
  have hmember : ∀ i, (do
      if (← processPid p.container_id i) = p.pid then processActive p.container_id i
      else return false : Prog (Containers N P) Bool).Reads :=
    fun i => Reads.get.bind fun _ => Reads.ite Reads.get (Reads.pure _)
  refine (Reads.search (Reads.pure _) hmember _ _).writes.bind fun r => ?_
  cases r with
  | some i => exact (setAt_keeps _ _).bind fun _ => trivial
  | none => trivial

/-! ## A first member

The shortest sequence of calls that makes a member, at the capacities of `param.h`. -/

def firstCreate : Containers 2 2 := (boot 2 2).created ⟨0, Nat.two_pos⟩ (Container.zero 2) 1

def firstJoin (p : Proc) : Containers 2 2 := firstCreate.joined ⟨0, Nat.two_pos⟩ ⟨0, Nat.two_pos⟩ p (-1)

theorem firstCreate_callStep : callStep (boot 2 2) (.create (Container.zero 2), 0) firstCreate := by
  obtain ⟨ptr, hexec, hptr⟩ := createContainer_spec (s := boot 2 2) (Container.zero 2) (k := 0) rfl
  rcases hptr with ⟨-, hall⟩ | ⟨i, hi, rfl, -⟩
  · exact absurd (hall 1 (by decide)) (by decide)
  · obtain rfl : i = 1 := by omega
    exact hexec

theorem firstJoin_callStep (p : Proc) : callStep firstCreate (.join p 0, 0) (firstJoin p) := by
  obtain ⟨hint, hexec, hhint⟩ :=
    joinContainer_spec (s := firstCreate) p (k := 0) (j := 0) rfl rfl (by decide) (by decide)
  rcases hhint with ⟨rfl, -⟩ | ⟨i, hi, hic, -, -⟩
  · exact hexec
  · obtain rfl : i = 1 := by omega
    exact absurd rfl hic

end Xv6.Containers
