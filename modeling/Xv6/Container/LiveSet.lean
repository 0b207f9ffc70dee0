import Xv6.Container.Spec
import Xv6.Lib.Run
import Mathlib.Data.Finset.Card
import Mathlib.Data.Fintype.Basic

/-!
# The container table is a set of live ids

What `c_active` and `c_pointer` are for: handing out ids, each to one container at a time. The
abstract table is the finite set of ids in use, and `LiveStep` is what a call may do to it.
`callStep_simulates` shows that every call on the globals is such a step, from the invariant that
the source leaves unsaid: `c_pointer` is `-1` exactly when every id is in use, and else names a free
one (`PointerInv`). `issued` is the callers' side of the same set, computed from the returned values
alone.
-/

namespace Xv6.Containers

open Run

variable {N P : ℕ}

/-- The ids in use. -/
def liveSet (s : Containers N P) : Finset (Fin N) := Finset.univ.filter fun k => s.c_active k = true

@[simp] theorem mem_liveSet {s : Containers N P} {k : Fin N} :
    k ∈ s.liveSet ↔ s.c_active k = true := by
  simp [liveSet]

/-- What a call that returns a value may do to the set of live ids. -/
inductive LiveStep : Finset (Fin N) → Call P × ℤ → Finset (Fin N) → Prop
  /-- No id is left. -/
  | full (c : Container P) : LiveStep Finset.univ (.create c, -1) Finset.univ
  /-- An id that was not live becomes live, and is returned. -/
  | create (L : Finset (Fin N)) (c : Container P) (k : Fin N) (h : k ∉ L) :
    LiveStep L (.create c, ((k : ℕ) : ℤ)) (insert k L)
  /-- There is no such container. -/
  | refuse (L : Finset (Fin N)) (id : ℤ) (h : ∀ k ∈ L, id ≠ (k : ℕ)) :
    LiveStep L (.destroy id, -1) L
  /-- A live id becomes dead. -/
  | destroy (L : Finset (Fin N)) (k : Fin N) (h : k ∈ L) :
    LiveStep L (.destroy (k : ℕ), 0) (L.erase k)
  /-- Membership does not touch the set. -/
  | join (L : Finset (Fin N)) (p : Proc) (id r : ℤ) : LiveStep L (.join p id, r) L
  /-- Membership does not touch the set. -/
  | leave (L : Finset (Fin N)) (p : Proc) (r : ℤ) : LiveStep L (.leave p, r) L

def PointerInv (s : Containers N P) : Prop :=
  (s.c_pointer = -1 ∧ ∀ k, s.c_active k = true) ∨
    ∃ k : Fin N, s.c_pointer = (k : ℕ) ∧ s.c_active k = false

theorem boot_pointerInv (hN : 0 < N) : (boot N P).PointerInv := .inr ⟨⟨0, hN⟩, rfl, rfl⟩

theorem live_iff_mem {s : Containers N P} {id : ℤ} :
    s.Live id ↔ ∃ k ∈ s.liveSet, id = (k : ℕ) := by
  constructor
  · rintro ⟨k, rfl, hk⟩
    exact ⟨k, mem_liveSet.2 hk, rfl⟩
  · rintro ⟨k, hk, rfl⟩
    exact ⟨k, rfl, mem_liveSet.1 hk⟩

@[simp] theorem liveSet_created (s : Containers N P) (k : Fin N) (c : Container P) (ptr : ℤ) :
    (s.created k c ptr).liveSet = insert k s.liveSet := by
  ext i
  by_cases h : i = k <;> simp [h]

@[simp] theorem liveSet_destroyed (s : Containers N P) (k : Fin N) :
    (s.destroyed k).liveSet = s.liveSet.erase k := by
  ext i
  by_cases h : i = k <;> simp [h]

theorem createContainer_liveStep {s : Containers N P} (h : s.PointerInv) (c : Container P) :
    ∃ r s', (createContainer c).exec s = some (r, s') ∧ (r = -1 → s' = s) ∧ s'.PointerInv ∧
      LiveStep (P := P) s.liveSet (.create c, r) s'.liveSet := by
  rcases h with ⟨hptr, hall⟩ | ⟨k, hptr, hk⟩
  · refine ⟨-1, s, createContainer_refused c hptr, fun _ => rfl, .inl ⟨hptr, hall⟩, ?_⟩
    have huniv : s.liveSet = Finset.univ := Finset.eq_univ_iff_forall.2 fun k => by simp [hall k]
    rw [huniv]
    exact .full c
  · obtain ⟨ptr, hexec, hnext⟩ := createContainer_spec c hptr
    refine ⟨_, _, hexec, fun h => by omega, ?_, ?_⟩
    · -- The scans find a free id if there is one, so the invariant holds again.
      rcases hnext with ⟨rfl, hall⟩ | ⟨i, hik, rfl, hi⟩
      · refine .inl ⟨rfl, fun i => ?_⟩
        by_cases hik : i = k
        · simp [hik]
        · simp [hik, hall i hik]
      · exact .inr ⟨i, rfl, by simp [hik, hi]⟩
    · rw [liveSet_created]
      exact .create _ c k (by simp [hk])

theorem destroyContainer_liveStep {s : Containers N P} (h : s.PointerInv) (id : ℤ) :
    ∃ r s', (destroyContainer id).exec s = some (r, s') ∧ (r ≠ 0 → s' = s) ∧ s'.PointerInv ∧
      LiveStep (P := P) s.liveSet (.destroy id, r) s'.liveSet := by
  by_cases hid : s.Live id
  · obtain ⟨k, rfl, hk⟩ := hid
    refine ⟨0, _, destroyContainer_spec hk, fun h => absurd rfl h, ?_, ?_⟩
    · rcases h with ⟨hptr, hall⟩ | ⟨i, hptr, hi⟩
      · exact .inr ⟨k, by simp [destroyed, hptr], by simp⟩
      · have hik : i ≠ k := by
          rintro rfl
          rw [hi] at hk
          cases hk
        exact .inr ⟨i, by simp [destroyed, hptr], by simp [hik, hi]⟩
    · rw [liveSet_destroyed]
      exact .destroy _ k (mem_liveSet.2 hk)
  · refine ⟨-1, s, destroyContainer_refused hid, fun _ => rfl, h, .refuse _ id fun k hk => ?_⟩
    rintro rfl
    exact hid ⟨k, rfl, mem_liveSet.1 hk⟩

theorem callStep_simulates {s s' : Containers N P} {e : Call P × ℤ} (h : s.PointerInv)
    (hs : callStep s e s') : LiveStep s.liveSet e s'.liveSet ∧ s'.PointerInv := by
  obtain ⟨call, r⟩ := e
  -- A call that changes neither `c_active` nor `c_pointer` leaves the set and the invariant.
  have hkeep : (s'.c_active, s'.c_pointer) = (s.c_active, s.c_pointer) →
      s'.liveSet = s.liveSet ∧ s'.PointerInv := by
    intro heq
    obtain ⟨hact, hptr⟩ := Prod.mk.inj heq
    unfold liveSet PointerInv
    rw [hact, hptr]
    exact ⟨rfl, h⟩
  cases call with
  | create c =>
    obtain ⟨r₁, s₁, hexec, -, hinv, hlive⟩ := createContainer_liveStep h c
    obtain ⟨rfl, rfl⟩ : r₁ = r ∧ s₁ = s' := by simpa [hexec, callStep, Call.prog] using hs
    exact ⟨hlive, hinv⟩
  | destroy id =>
    obtain ⟨r₁, s₁, hexec, -, hinv, hlive⟩ := destroyContainer_liveStep h id
    obtain ⟨rfl, rfl⟩ : r₁ = r ∧ s₁ = s' := by simpa [hexec, callStep, Call.prog] using hs
    exact ⟨hlive, hinv⟩
  | join p id =>
    obtain ⟨hlive, hinv⟩ := hkeep ((joinContainer_keeps p id).exec hs)
    rw [hlive]
    exact ⟨.join _ p id r, hinv⟩
  | leave p =>
    obtain ⟨hlive, hinv⟩ := hkeep ((leaveContainer_keeps p).exec hs)
    rw [hlive]
    exact ⟨.leave _ p r, hinv⟩

def issued : List ((Call P × ℤ) × Containers N P) → List ℤ
  | [] => []
  | ((.create _, r), _) :: π => if r = -1 then issued π else r :: issued π
  | ((.destroy id, r), _) :: π => if r = 0 then (issued π).erase id else issued π
  | _ :: π => issued π

def CreateRefines (s : Containers N P) : Prop :=
  ∀ c, ∃ r s', (createContainer c).exec s = some (r, s') ∧ (r = -1 ↔ s.liveSet = Finset.univ) ∧
    (r = -1 → s' = s) ∧
    (r ≠ -1 → ∃ k : Fin N, r = (k : ℕ) ∧ k ∉ s.liveSet ∧ s'.liveSet = insert k s.liveSet)

def DestroyRefines (s : Containers N P) : Prop :=
  ∀ id, ∃ r s', (destroyContainer id).exec s = some (r, s') ∧
    (r = 0 ↔ ∃ k ∈ s.liveSet, id = (k : ℕ)) ∧ (r ≠ 0 → s' = s) ∧
    (r = 0 → (∀ k : Fin N, id = (k : ℕ) → s'.liveSet = s.liveSet.erase k) ∧
      ∀ c, ∃ r' s'', (createContainer c).exec s' = some (r', s'') ∧ r' ≠ -1)

theorem PointerInv.createRefines {s : Containers N P} (h : s.PointerInv) : s.CreateRefines := by
  intro c
  obtain ⟨r, s', hexec, hsame, -, hlive⟩ := createContainer_liveStep h c
  refine ⟨r, s', hexec, ?_, hsame, ?_⟩
  · generalize s.liveSet = L, s'.liveSet = L' at hlive
    cases hlive with
    | full => simp
    | create _ _ k hk =>
      constructor
      · intro h
        omega
      · rintro rfl
        exact absurd (Finset.mem_univ k) hk
  · intro hr
    generalize s.liveSet = L, s'.liveSet = L' at hlive
    cases hlive with
    | full => exact absurd rfl hr
    | create _ _ k hk => exact ⟨k, rfl, hk, rfl⟩

theorem PointerInv.destroyRefines {s : Containers N P} (h : s.PointerInv) : s.DestroyRefines := by
  intro id
  obtain ⟨r, s', hexec, hsame, hinv, hlive⟩ := destroyContainer_liveStep h id
  have hr : (r = 0 ∧ ∃ k ∈ s.liveSet, id = (k : ℕ) ∧ s'.liveSet = s.liveSet.erase k) ∨
      (r = -1 ∧ ∀ k ∈ s.liveSet, id ≠ (k : ℕ)) := by
    generalize s.liveSet = L, s'.liveSet = L' at hlive
    cases hlive with
    | refuse _ _ hno => exact .inr ⟨rfl, hno⟩
    | destroy _ k hk => exact .inl ⟨rfl, k, hk, rfl, rfl⟩
  refine ⟨r, s', hexec, ?_, hsame, fun h0 => ?_⟩
  · rcases hr with ⟨rfl, k, hk, hid, -⟩ | ⟨rfl, hno⟩
    · exact ⟨fun _ => ⟨k, hk, hid⟩, fun _ => rfl⟩
    · exact ⟨fun h => absurd h (by decide), fun ⟨k, hk, hid⟩ => absurd hid (hno k hk)⟩
  · rcases hr with ⟨-, k, hk, hid, hL⟩ | ⟨rfl, -⟩
    · refine ⟨fun i hi => ?_, fun c => ?_⟩
      · have hik : i = k := Fin.ext (by omega)
        rw [hik, hL]
      · -- `k` is dead now, so the table is not full.
        obtain ⟨r', s'', hexec', hfull, -⟩ := hinv.createRefines c
        refine ⟨r', s'', hexec', fun hr' => ?_⟩
        have hmem := Finset.mem_univ k
        rw [← hfull.1 hr', hL] at hmem
        exact absurd hmem (Finset.notMem_erase k _)
    · exact absurd h0 (by decide)

theorem issued_eq_live (hN : 0 < N) {π : List ((Call P × ℤ) × Containers N P)}
    (h : IsRun callStep (boot N P) π) :
    (issued π).Nodup ∧ ∀ id, id ∈ issued π ↔ (last (boot N P) π).Live id := by
  induction π with
  | nil =>
    refine ⟨List.nodup_nil, fun id => ⟨fun h => by simp [issued] at h, ?_⟩⟩
    rintro ⟨k, -, hk⟩
    simp [boot] at hk
  | cons x π ih =>
    obtain ⟨⟨call, r⟩, s'⟩ := x
    obtain ⟨hstep, hrun⟩ := h
    obtain ⟨hnd, hmem⟩ := ih hrun
    have hinv : (last (boot N P) π).PointerInv :=
      IsRun.invariant (boot_pointerInv hN) (fun _ _ _ hi hs => (callStep_simulates hi hs).2) hrun
    have hlive := (callStep_simulates hinv hstep).1
    simp only [live_iff_mem, last_cons] at hmem ⊢
    generalize (last (boot N P) π).liveSet = L, s'.liveSet = L' at hlive hmem
    cases hlive with
    | full c => exact ⟨by simpa [issued] using hnd, by simpa [issued] using hmem⟩
    | create _ c k hk =>
      have hr : ((k : ℕ) : ℤ) ≠ -1 := by omega
      have hnew : ((k : ℕ) : ℤ) ∉ issued π := by
        rw [hmem]
        rintro ⟨i, hi, hik⟩
        exact hk (by rwa [Fin.ext (show (k : ℕ) = i by omega)])
      simp only [issued, if_neg hr]
      refine ⟨List.nodup_cons.2 ⟨hnew, hnd⟩, fun id => ?_⟩
      simp [hmem]
    | refuse _ id hno => exact ⟨by simpa [issued] using hnd, by simpa [issued] using hmem⟩
    | destroy _ k hk =>
      simp only [issued, if_true]
      refine ⟨hnd.erase _, fun id => ?_⟩
      rw [hnd.mem_erase_iff, hmem]
      constructor
      · rintro ⟨hne, i, hi, rfl⟩
        exact ⟨i, Finset.mem_erase.2 ⟨by rintro rfl; exact hne rfl, hi⟩, rfl⟩
      · rintro ⟨i, hi, rfl⟩
        obtain ⟨hik, hi⟩ := Finset.mem_erase.1 hi
        exact ⟨fun h => hik (Fin.ext (by omega)), i, hi, rfl⟩
    | join p id r => exact ⟨by simpa [issued] using hnd, by simpa [issued] using hmem⟩
    | leave p r => exact ⟨by simpa [issued] using hnd, by simpa [issued] using hmem⟩

/-- For every capacity, after every sequence of calls from boot, `create_container` and
`destroy_container` act on the set of live ids as they should, and the ids that the callers hold are
the live ids, no two of them equal. -/
theorem containers_refine_live_set (hN : 1 ≤ N) {π : List ((Call P × ℤ) × Containers N P)}
    (h : IsRun callStep (boot N P) π) :
    (last (boot N P) π).CreateRefines ∧ (last (boot N P) π).DestroyRefines ∧
      (issued π).Nodup ∧ ∀ id, id ∈ issued π ↔ (last (boot N P) π).Live id := by
  have hinv : (last (boot N P) π).PointerInv :=
    IsRun.invariant (boot_pointerInv hN) (fun _ _ _ hi hs => (callStep_simulates hi hs).2) h
  exact ⟨hinv.createRefines, hinv.destroyRefines, issued_eq_live hN h⟩

/-- At the capacities of `param.h`, after one `create_container`. -/
theorem containers_refine_live_set_create :
    IsRun callStep (boot 2 2) [((.create (Container.zero 2), 0), firstCreate)] ∧
      firstCreate.CreateRefines ∧ firstCreate.DestroyRefines ∧
      ∀ id, id ∈ [(0 : ℤ)] ↔ firstCreate.Live id := by
  have hrun : IsRun callStep (boot 2 2) [((.create (Container.zero 2), 0), firstCreate)] :=
    ⟨firstCreate_callStep, trivial⟩
  obtain ⟨hcreate, hdestroy, -, hissued⟩ := containers_refine_live_set (by decide) hrun
  exact ⟨hrun, hcreate, hdestroy, hissued⟩

end Xv6.Containers
