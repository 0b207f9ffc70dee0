import Xv6.Container.LiveSet

/-!
# The slots of a container

`process_pointer` of a container is a hint for the next `join_container`: it is `-1`, or names a
slot that is free (`HintInv`). The hint is computed by an earlier call, with bounds from the
unrelated `c_pointer`, and is used by a later one after other calls have run, so that a join
overwrites no member only because every call keeps `HintInv`. `Effect` lists everything that a call
can do, and `exec_call` shows, for `NCONTAINER ≤ NPROC_CONTAINER`, that a call from a state with the
invariants returns and does one of these.
-/

namespace Xv6

open Function Run

variable {N P : ℕ}

def Container.HintInv (c : Container P) : Prop :=
  c.process_pointer = -1 ∨
    ∃ j : Fin P, c.process_pointer = (j : ℕ) ∧ c.process_active j = false

namespace Containers

/-- What holds between any two calls. -/
structure Inv (s : Containers N P) : Prop where
  /-- `c_pointer` is `-1` or names a free container. -/
  pointer : s.PointerInv
  /-- Every `process_pointer` is `-1` or names a free slot. -/
  hint : ∀ k, (s.container_table k).HintInv

theorem boot_inv (hN : 0 < N) (hP : 0 < P) : (boot N P).Inv :=
  ⟨boot_pointerInv hN, fun _ => .inr ⟨⟨0, hP⟩, rfl, rfl⟩⟩

/-- Everything that a call with a given result may have done. -/
inductive Effect (s : Containers N P) : Call P → ℤ → Containers N P → Prop
  /-- The container table is full. -/
  | createFull (c : Container P) (h : s.c_pointer = -1) : Effect s (.create c) (-1) s
  /-- Container `k` is made. -/
  | create (c : Container P) (k : Fin N) (ptr : ℤ) (hk : s.c_pointer = (k : ℕ)) :
    Effect s (.create c) ((k : ℕ) : ℤ) (s.created k c ptr)
  /-- There is no container `id` to destroy. -/
  | destroyRefused (id : ℤ) (h : ¬ s.Live id) : Effect s (.destroy id) (-1) s
  /-- Container `k` is destroyed. -/
  | destroy (k : Fin N) (hk : s.c_active k = true) :
    Effect s (.destroy (k : ℕ)) 0 (s.destroyed k)
  /-- There is no container `id` to join. -/
  | joinRefused (p : Proc) (id : ℤ) (h : ¬ s.Live id) : Effect s (.join p id) (-1) s
  /-- The hint of container `k` says that it is full. -/
  | joinFull (p : Proc) (k : Fin N) (hk : s.c_active k = true)
    (hj : (s.container_table k).process_pointer = -1) : Effect s (.join p (k : ℕ)) (-1) s
  /-- `p` gets slot `j` of container `k`, and the hint moves on to a free slot other than number
  `c_pointer`, or to `-1` if there is none. -/
  | join (p : Proc) (k : Fin N) (j : Fin P) (hint : ℤ) (hk : s.c_active k = true)
    (hj : (s.container_table k).process_pointer = (j : ℕ))
    (hfree : (s.container_table k).process_active j = false)
    (hhint : (hint = -1 ∧ ∀ i, i ≠ j → ((i : ℕ) : ℤ) ≠ s.c_pointer →
        (s.container_table k).process_active i = true) ∨
      ∃ i, i ≠ j ∧ ((i : ℕ) : ℤ) ≠ s.c_pointer ∧ hint = (i : ℕ) ∧
        (s.container_table k).process_active i = false) :
    Effect s (.join p (k : ℕ)) 0 (s.joined k j p hint)
  /-- The caller's `container_id` names no container in use. -/
  | leaveRefused (p : Proc) (h : ¬ s.Live p.container_id) : Effect s (.leave p) (-1) s
  /-- The caller is not a member of container `k`. -/
  | leaveNone (p : Proc) (k : Fin N) (hid : p.container_id = (k : ℕ))
    (hk : s.c_active k = true)
    (hnone : ∀ j, (s.container_table k).process_active j = true →
      ((s.container_table k).process_table j).pid ≠ p.pid) : Effect s (.leave p) 0 s
  /-- A slot of the caller in container `k` is freed. -/
  | leave (p : Proc) (k : Fin N) (j : Fin P) (hid : p.container_id = (k : ℕ))
    (hk : s.c_active k = true) (hj : (s.container_table k).process_active j = true)
    (hpid : ((s.container_table k).process_table j).pid = p.pid) :
    Effect s (.leave p) 0 (s.freed k j)

theorem PointerInv.range {s : Containers N P} (h : s.PointerInv) :
    -1 ≤ s.c_pointer ∧ s.c_pointer < N := by
  rcases h with ⟨hptr, -⟩ | ⟨k, hptr, -⟩
  · omega
  · have := k.isLt
    omega

theorem exec_call (hNP : N ≤ P) {s : Containers N P} (h : s.Inv) (call : Call P) :
    ∃ r s', (call.prog : Prog (Containers N P) ℤ).exec s = some (r, s') ∧ Effect s call r s' := by
  obtain ⟨hlo, hhi⟩ := h.pointer.range
  cases call with
  | create c =>
    rcases h.pointer with ⟨hptr, -⟩ | ⟨k, hptr, -⟩
    · exact ⟨-1, s, createContainer_refused c hptr, .createFull c hptr⟩
    · obtain ⟨ptr, hexec, -⟩ := createContainer_spec c hptr
      exact ⟨_, _, hexec, .create c k ptr hptr⟩
  | destroy id =>
    by_cases hid : s.Live id
    · obtain ⟨k, rfl, hk⟩ := hid
      exact ⟨_, _, destroyContainer_spec hk, .destroy k hk⟩
    · exact ⟨_, _, destroyContainer_refused hid, .destroyRefused id hid⟩
  | join p id =>
    by_cases hid : s.Live id
    · obtain ⟨k, rfl, hk⟩ := hid
      rcases h.hint k with hj | ⟨j, hj, hfree⟩
      · exact ⟨_, _, joinContainer_full p hk hj, .joinFull p k hk hj⟩
      · obtain ⟨hint, hexec, hhint⟩ := joinContainer_spec p hk hj hlo (by omega)
        exact ⟨_, _, hexec, .join p k j hint hk hj hfree hhint⟩
    · exact ⟨_, _, joinContainer_refused p hid, .joinRefused p id hid⟩
  | leave p =>
    by_cases hid : s.Live p.container_id
    · obtain ⟨k, hid, hk⟩ := hid
      rcases leaveContainer_spec hid hk with ⟨hexec, hnone⟩ | ⟨j, hexec, hj, hpid⟩
      · exact ⟨_, _, hexec, .leaveNone p k hid hk hnone⟩
      · exact ⟨_, _, hexec, .leave p k j hid hk hj hpid⟩
    · exact ⟨_, _, leaveContainer_refused hid, .leaveRefused p hid⟩

theorem effect_of_callStep (hNP : N ≤ P) {s s' : Containers N P} {call : Call P} {r : ℤ}
    (h : s.Inv) (hs : callStep s (call, r) s') : Effect s call r s' := by
  obtain ⟨r₁, s₁, hexec, heff⟩ := exec_call hNP h call
  obtain ⟨rfl, rfl⟩ : r₁ = r ∧ s₁ = s' := by simpa [hexec, callStep] using hs
  exact heff

theorem hint_setContainer {s : Containers N P} {k : Fin N} {c : Container P}
    (h : ∀ k, (s.container_table k).HintInv) (hc : c.HintInv) (i : Fin N) :
    ((s.setContainer k c).container_table i).HintInv := by
  by_cases hik : i = k
  · simpa [hik] using hc
  · simpa [hik] using h i

theorem hint_created (hNP : N ≤ P) {s : Containers N P} (h : ∀ k, (s.container_table k).HintInv)
    (k : Fin N) (c : Container P) (ptr : ℤ) (i : Fin N) :
    ((s.created k c ptr).container_table i).HintInv := by
  by_cases hik : i = k
  · have hP : 0 < P := by have := k.isLt; omega
    exact .inr ⟨⟨0, hP⟩, by simp [hik, initContainer], by simp [hik, initContainer]⟩
  · simpa [hik] using h i

theorem callStep_inv (hNP : N ≤ P) {s s' : Containers N P} {e : Call P × ℤ} (h : s.Inv)
    (hs : callStep s e s') : s'.Inv := by
  obtain ⟨call, r⟩ := e
  refine ⟨(callStep_simulates h.pointer hs).2, ?_⟩
  cases effect_of_callStep hNP h hs with
  | createFull => exact h.hint
  | create c k ptr hk => exact hint_created hNP h.hint k c ptr
  | destroyRefused => exact h.hint
  | destroy => exact h.hint
  | joinRefused => exact h.hint
  | joinFull => exact h.hint
  | join p k j hint hk hj hfree hhint =>
    apply hint_setContainer h.hint
    rcases hhint with ⟨rfl, -⟩ | ⟨i, hij, -, rfl, hi⟩
    · exact .inl rfl
    · exact .inr ⟨i, rfl, by simpa [hij] using hi⟩
  | leaveRefused => exact h.hint
  | leaveNone => exact h.hint
  | leave p k j hid hk hj hpid =>
    -- Freeing a slot leaves a free slot free.
    apply hint_setContainer h.hint
    rcases h.hint k with hptr | ⟨i, hptr, hi⟩
    · exact .inl hptr
    · refine .inr ⟨i, hptr, ?_⟩
      by_cases hij : i = j <;> simp [hij, hi]

theorem run_inv (hN : 0 < N) (hNP : N ≤ P) {π : List ((Call P × ℤ) × Containers N P)}
    (h : IsRun callStep (boot N P) π) : (last (boot N P) π).Inv :=
  IsRun.invariant (boot_inv hN (by omega)) (fun _ _ _ hi hs => callStep_inv hNP hi hs) h

/-- `join_container` never overwrites a member. After every sequence of calls from boot it makes no
access outside an array; when it returns `0` it has filled one slot of the container that was free,
and changed no other slot and no other container; when it returns `-1` it has changed nothing. -/
theorem joinContainer_fills_free_slot (hNP : N ≤ P) {π : List ((Call P × ℤ) × Containers N P)}
    (h : IsRun callStep (boot N P) π) {s : Containers N P} (hs : s = last (boot N P) π) (p : Proc)
    (id : ℤ) :
    ∃ r s', (joinContainer p id).exec s = some (r, s') ∧
      ((r = 0 ∧ ∃ (k : Fin N) (j : Fin P), id = (k : ℕ) ∧
          (s.container_table k).process_active j = false ∧
          (s'.container_table k).process_active =
            update (s.container_table k).process_active j true ∧
          (s'.container_table k).process_table =
            update (s.container_table k).process_table j (s.member p id) ∧
          (∀ i, i ≠ k → s'.container_table i = s.container_table i) ∧
          s'.c_active = s.c_active ∧ s'.c_pointer = s.c_pointer) ∨
        (r = -1 ∧ s' = s)) := by
  subst hs
  rcases Nat.eq_zero_or_pos N with rfl | hN
  · -- No container, so no `id` passes the guard.
    exact ⟨-1, _, joinContainer_refused p fun ⟨k, _, _⟩ => k.elim0, .inr ⟨rfl, rfl⟩⟩
  · obtain ⟨r, s', hexec, heff⟩ := exec_call hNP (run_inv hN hNP h) (.join p id)
    refine ⟨r, s', hexec, ?_⟩
    cases heff with
    | joinRefused => exact .inr ⟨rfl, rfl⟩
    | joinFull => exact .inr ⟨rfl, rfl⟩
    | join _ k j hint hk hj hfree =>
      refine .inl ⟨rfl, k, j, rfl, hfree, by simp [joined], by simp [joined], ?_, rfl, rfl⟩
      intro i hik
      simp [joined, hik]

/-- At the capacities of `param.h`, for a join of the container that a first `create_container`
made. -/
theorem joinContainer_fills_free_slot_create :
    IsRun callStep (boot 2 2) [((.create (Container.zero 2), 0), firstCreate)] ∧
      ∃ r s', (joinContainer Proc.zero 0).exec firstCreate = some (r, s') ∧
        ((r = 0 ∧ ∃ (k : Fin 2) (j : Fin 2), (0 : ℤ) = (k : ℕ) ∧
            (firstCreate.container_table k).process_active j = false ∧
            (s'.container_table k).process_active =
              update (firstCreate.container_table k).process_active j true ∧
            (s'.container_table k).process_table =
              update (firstCreate.container_table k).process_table j
                (firstCreate.member Proc.zero 0) ∧
            (∀ i, i ≠ k → s'.container_table i = firstCreate.container_table i) ∧
            s'.c_active = firstCreate.c_active ∧ s'.c_pointer = firstCreate.c_pointer) ∨
          (r = -1 ∧ s' = firstCreate)) := by
  have hrun : IsRun callStep (boot 2 2) [((.create (Container.zero 2), 0), firstCreate)] :=
    ⟨firstCreate_callStep, trivial⟩
  exact ⟨hrun, joinContainer_fills_free_slot (by decide) hrun rfl Proc.zero 0⟩

end Containers

end Xv6
