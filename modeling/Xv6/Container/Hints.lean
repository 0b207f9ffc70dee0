import Xv6.Container.Slots

/-!
# When the free-slot hint is exact

`join_container` takes a `process_pointer` of `-1` to mean that the container is full. After a join,
the scans that look for the next free slot start from `c_pointer` instead of the slot just filled,
and so leave out slot number `c_pointer`; and `leave_container` does not set the hint.
`Container.HintExact` says that `-1` does mean full. A call keeps it for all containers exactly if
it meets `HintKept`.
-/

namespace Xv6

open Function Run

variable {N P : ℕ}

def Container.HintExact (c : Container P) : Prop :=
  c.process_pointer = -1 ↔ ∀ j, c.process_active j = true

namespace Containers

def HintsExact (s : Containers N P) : Prop :=
  ∀ k, s.c_active k = true → (s.container_table k).HintExact

def JoinExact (s : Containers N P) : Prop :=
  ∀ (p : Proc) (k : Fin N), s.c_active k = true →
    ∃ r s', (joinContainer p (k : ℕ)).exec s = some (r, s') ∧
      (r = -1 ↔ ∀ j, (s.container_table k).process_active j = true)

def HintKept (s : Containers N P) : Call P × ℤ → Prop
  | (.join _ id, _) => ∀ (k : Fin N) (j : Fin P), id = (k : ℕ) → s.c_active k = true →
      (s.container_table k).process_pointer = (j : ℕ) →
      ¬ ∃ i, i ≠ j ∧ ((i : ℕ) : ℤ) = s.c_pointer ∧
        (s.container_table k).process_active i = false ∧
        ∀ i', i' ≠ j → i' ≠ i → (s.container_table k).process_active i' = true
  | (.leave p, _) => ∀ k : Fin N, p.container_id = (k : ℕ) → s.c_active k = true →
      (s.container_table k).process_pointer = -1 →
      ∀ j, (s.container_table k).process_active j = true →
        ((s.container_table k).process_table j).pid ≠ p.pid
  | _ => True

theorem hintsExact_setContainer {s : Containers N P} {k : Fin N} {c : Container P}
    (h : s.HintsExact) (hk : s.c_active k = true) :
    (s.setContainer k c).HintsExact ↔ c.HintExact := by
  constructor
  · intro h'
    simpa using h' k hk
  · intro hc i hi
    by_cases hik : i = k
    · simpa [hik] using hc
    · simpa [hik] using h i hi

theorem hintExact_joined {s : Containers N P} {k : Fin N} {j : Fin P} {p q : Proc} {hint r : ℤ}
    (hk : s.c_active k = true) (hj : (s.container_table k).process_pointer = (j : ℕ))
    (hhint : (hint = -1 ∧ ∀ i, i ≠ j → ((i : ℕ) : ℤ) ≠ s.c_pointer →
        (s.container_table k).process_active i = true) ∨
      ∃ i, i ≠ j ∧ ((i : ℕ) : ℤ) ≠ s.c_pointer ∧ hint = (i : ℕ) ∧
        (s.container_table k).process_active i = false) :
    Container.HintExact { s.container_table k with
      process_table := update (s.container_table k).process_table j q
      process_active := update (s.container_table k).process_active j true
      process_pointer := hint } ↔ s.HintKept (.join p (k : ℕ), r) := by
  unfold Container.HintExact HintKept
  simp only
  rcases hhint with ⟨rfl, hall⟩ | ⟨i, hij, hic, rfl, hi⟩
  · -- The scans found nothing: only slot `c_pointer` can be free.
    constructor
    · rintro hfull k' j' hkk - hj' ⟨i, hij, -, hi, -⟩
      obtain rfl : k' = k := Fin.ext (by omega)
      obtain rfl : j' = j := Fin.ext (by omega)
      have := hfull.1 rfl i
      rw [update_of_ne hij, hi] at this
      cases this
    · intro hkept
      refine ⟨fun _ i => ?_, fun _ => rfl⟩
      by_cases hij : i = j
      · simp [hij]
      · rw [update_of_ne hij]
        by_cases hic : ((i : ℕ) : ℤ) = s.c_pointer
        · by_contra hi
          refine hkept k j rfl hk hj ⟨i, hij, hic, by simpa using hi, fun i' h1 h2 => ?_⟩
          exact hall i' h1 fun h => h2 (Fin.ext (by omega))
        · exact hall i hij hic
  · -- The scans found slot `i`, which is not slot `c_pointer`.
    constructor
    · rintro - k' j' hkk - hj' ⟨i', -, hic', -, hothers⟩
      obtain rfl : k' = k := Fin.ext (by omega)
      obtain rfl : j' = j := Fin.ext (by omega)
      have := hothers i hij fun h => hic (by rw [h]; exact hic')
      rw [hi] at this
      cases this
    · intro _
      constructor
      · intro h
        omega
      · intro h
        have := h i
        rw [update_of_ne hij, hi] at this
        cases this

theorem hintsExact_iff_hintKept (hNP : N ≤ P) {s s' : Containers N P} {e : Call P × ℤ}
    (hinv : s.Inv) (hs : callStep s e s') (h : s.HintsExact) : s'.HintsExact ↔ s.HintKept e := by
  obtain ⟨call, r⟩ := e
  cases effect_of_callStep hNP hinv hs with
  | createFull => exact ⟨fun _ => trivial, fun _ => h⟩
  | create c k ptr hk =>
    refine ⟨fun _ => trivial, fun _ i hi => ?_⟩
    have hP : 0 < P := by have := k.isLt; omega
    by_cases hik : i = k
    · subst hik
      simp only [created_container_table, update_self, Container.HintExact, initContainer]
      exact ⟨fun h => by omega, fun h => absurd (h ⟨0, hP⟩) (by decide)⟩
    · simpa [hik] using h i (by simpa [hik] using hi)
  | destroyRefused => exact ⟨fun _ => trivial, fun _ => h⟩
  | destroy k hk =>
    refine ⟨fun _ => trivial, fun _ i hi => ?_⟩
    by_cases hik : i = k
    · simp [hik] at hi
    · exact h i (by simpa [hik] using hi)
  | joinRefused p id hno =>
    exact ⟨fun _ k j hid hk => absurd ⟨k, hid, hk⟩ hno, fun _ => h⟩
  | joinFull p k hk hj =>
    refine ⟨fun _ k' j hid _ hj' => ?_, fun _ => h⟩
    obtain rfl : k' = k := Fin.ext (by omega)
    omega
  | join p k j hint hk hj hfree hhint =>
    unfold joined
    rw [hintsExact_setContainer h hk]
    exact hintExact_joined hk hj hhint
  | leaveRefused p hno => exact ⟨fun _ k hid hk => absurd ⟨k, hid, hk⟩ hno, fun _ => h⟩
  | leaveNone p k hid hk hnone =>
    refine ⟨fun _ k' hid' _ _ => ?_, fun _ => h⟩
    obtain rfl : k' = k := Fin.ext (by omega)
    exact hnone
  | leave p k j hid hk hj hpid =>
    unfold freed
    rw [hintsExact_setContainer h hk]
    constructor
    · intro hexact k' hid' _ hptr
      obtain rfl : k' = k := Fin.ext (by omega)
      have := hexact.1 hptr j
      simp at this
    · intro hkept
      constructor
      · intro hptr
        exact absurd hpid (hkept k hid hk hptr j hj)
      · intro hall
        have := hall j
        simp at this

theorem HintsExact.joinExact (hNP : N ≤ P) {s : Containers N P} (h : s.HintsExact) (hinv : s.Inv) :
    s.JoinExact := by
  intro p k hk
  obtain ⟨r, s', hexec, heff⟩ := exec_call hNP hinv (.join p (k : ℕ))
  refine ⟨r, s', hexec, ?_⟩
  have hexact : (s.container_table k).process_pointer = -1 ↔
      ∀ j, (s.container_table k).process_active j = true := h k hk
  rw [← hexact]
  generalize hid : ((k : ℕ) : ℤ) = id at heff
  cases heff with
  | joinRefused _ _ hno => exact absurd ⟨k, hid.symm, hk⟩ hno
  | joinFull _ k' hk' hj =>
    obtain rfl : k' = k := Fin.ext (by omega)
    exact ⟨fun _ => hj, fun _ => rfl⟩
  | join _ k' j hint hk' hj =>
    obtain rfl : k' = k := Fin.ext (by omega)
    rw [hj]
    exact ⟨fun h => absurd h (by decide), fun h => by omega⟩

/-- In every state of a run, `process_pointer` is `-1` exactly for the full containers and a join
returns `-1` exactly for these, if and only if every join and every leave of the run meets its
condition. -/
theorem hints_exact_iff (hN : 0 < N) (hNP : N ≤ P) {π : List ((Call P × ℤ) × Containers N P)}
    (h : IsRun callStep (boot N P) π) :
    Along (fun π => (last (boot N P) π).HintsExact ∧ (last (boot N P) π).JoinExact) π ↔
      Meets HintKept (boot N P) π := by
  have h0 : (boot N P).Inv := boot_inv hN (by omega)
  have hboot : (boot N P).HintsExact := fun k hk => by cases hk
  refine IsRun.along_iff_meets (P := fun s => s.HintsExact ∧ s.JoinExact) h0
    (fun _ _ _ hi hs => callStep_inv hNP hi hs) ⟨hboot, hboot.joinExact hNP h0⟩ ?_ h
  intro s e s' hinv hs hP
  rw [← hintsExact_iff_hintKept hNP hinv hs hP.1]
  exact ⟨fun h => h.1, fun h => ⟨h, h.joinExact hNP (callStep_inv hNP hinv hs)⟩⟩

/-- A first `create_container`, after which the hints are exact. -/
theorem hints_exact_iff_create :
    IsRun callStep (boot 2 2) [((.create (Container.zero 2), 0), firstCreate)] ∧
      (Along (fun π => (last (boot 2 2) π).HintsExact ∧ (last (boot 2 2) π).JoinExact)
          [((Call.create (Container.zero 2), 0), firstCreate)] ↔
        Meets HintKept (boot 2 2) [((.create (Container.zero 2), 0), firstCreate)]) := by
  have hrun : IsRun callStep (boot 2 2) [((.create (Container.zero 2), 0), firstCreate)] :=
    ⟨firstCreate_callStep, trivial⟩
  exact ⟨hrun, hints_exact_iff (by decide) (by decide) hrun⟩

/-- After `create_container` and one `join_container` of it, `process_pointer` is `-1` and a second
join returns `-1`, while slot `1` is free. -/
theorem join_leaves_free_slot :
    IsRun callStep (boot 2 2) [((.join Ptable.initRunning 0, 0), firstJoin Ptable.initRunning),
        ((.create (Container.zero 2), 0), firstCreate)] ∧
      (firstJoin Ptable.initRunning).c_active 0 = true ∧
      ((firstJoin Ptable.initRunning).container_table 0).process_active 1 = false ∧
      ((firstJoin Ptable.initRunning).container_table 0).process_pointer = -1 ∧
      (joinContainer Ptable.initRunning 0).exec (firstJoin Ptable.initRunning) =
        some (-1, firstJoin Ptable.initRunning) :=
  ⟨⟨firstJoin_callStep _, firstCreate_callStep, trivial⟩, rfl, rfl, rfl,
    joinContainer_full _ (k := 0) rfl rfl⟩

end Containers

end Xv6
