import Xv6.Lib.Rely

/-!
# Pools of threads

Any number of threads over one shared state. A thread that runs holds the call that it makes, of
type `κ`, and the rest of the program of that call. `Pool.step` starts a call, makes one access of a
call, or ends a call that has returned, in any order. `Pool.tick` computes the same steps, for runs
that are given by their schedule.

The parallel rule `Pool.access_obeys` turns specifications of single threads into a fact about the
pool.
-/

namespace Xv6

universe u v

/-- A shared state and the calls in progress. -/
structure Pool (σ : Type u) (ι κ : Type*) (α : Type v) where
  shared : σ
  thread : ι → Option (κ × Prog σ α)

/-- A step of a pool: thread `i` starts call `c`, makes an access, or returns `a` from call `c`. -/
inductive PoolEvent (ι κ : Type*) (α : Type v)
  | start (i : ι) (c : κ)
  | access (i : ι)
  | done (i : ι) (c : κ) (a : α)

namespace Pool

variable {σ : Type u} {ι κ : Type*} {α : Type v} [DecidableEq ι] {prog : κ → Prog σ α}
  {s s' : Pool σ ι κ α} {i : ι}

/-- No call is in progress. -/
def idle (s : σ) : Pool σ ι κ α := ⟨s, fun _ => none⟩

def setThread (s : Pool σ ι κ α) (i : ι) (x : Option (κ × Prog σ α)) : Pool σ ι κ α :=
  { s with thread := Function.update s.thread i x }

@[simp] theorem setThread_self (s : Pool σ ι κ α) (i : ι) (x : Option (κ × Prog σ α)) :
    (s.setThread i x).thread i = x := by
  simp [setThread]

theorem setThread_of_ne (s : Pool σ ι κ α) {i j : ι} (x : Option (κ × Prog σ α)) (h : j ≠ i) :
    (s.setThread i x).thread j = s.thread j := by
  simp [setThread, h]

def step (prog : κ → Prog σ α) (s : Pool σ ι κ α) : PoolEvent ι κ α → Pool σ ι κ α → Prop
  | .start i c, s' => s.thread i = none ∧ s' = s.setThread i (some (c, prog c))
  | .access i, s' => ∃ c p q t, s.thread i = some (c, p) ∧ p.step s.shared = some (q, t) ∧
      s' = { s.setThread i (some (c, q)) with shared := t }
  | .done i c a, s' => s.thread i = some (c, .ret a) ∧ s' = s.setThread i none

/-- What the schedule can ask for: that thread `i` starts a call, or goes on with its call. -/
inductive Turn (ι κ : Type*)
  | start (i : ι) (c : κ)
  | run (i : ι)

def tick (prog : κ → Prog σ α) (s : Pool σ ι κ α) :
    Turn ι κ → Option (PoolEvent ι κ α × Pool σ ι κ α)
  | .start i c =>
    match s.thread i with
    | none => some (.start i c, s.setThread i (some (c, prog c)))
    | some _ => none
  | .run i =>
    match s.thread i with
    | some (c, .ret a) => some (.done i c a, s.setThread i none)
    | some (c, p) => (p.step s.shared).map fun (q, t) =>
        (.access i, { s.setThread i (some (c, q)) with shared := t })
    | none => none

theorem step_of_tick {x : Turn ι κ} {e : PoolEvent ι κ α} (h : s.tick prog x = some (e, s')) :
    s.step prog e s' := by
  cases x with
  | start i c =>
    simp only [tick] at h
    split at h
    · rename_i hnone
      cases h
      exact ⟨hnone, rfl⟩
    · cases h
  | run i =>
    simp only [tick] at h
    split at h
    · rename_i c a hret
      cases h
      exact ⟨hret, rfl⟩
    · rename_i c p _ hp
      obtain ⟨⟨q, t⟩, hq, heq⟩ := Option.map_eq_some_iff.1 h
      cases heq
      exact ⟨c, p, q, t, hp, hq, rfl⟩
    · cases h

theorem access_obeys {spec : κ → Spec σ α} {t : σ} {c : κ} {p q : Prog σ α}
    (hobeys : ∀ j c p, s.thread j = some (c, p) →
      p.Obeys (spec c).rely (spec c).guar (spec c).post s.shared)
    (hcompat : ∀ j c' p', j ≠ i → s.thread j = some (c', p') →
      ∀ t t' q, (spec c).guar t t' q → (spec c').rely.rel t t')
    (hp : s.thread i = some (c, p)) (hq : p.step s.shared = some (q, t)) :
    (t = s.shared ∨ (spec c).guar s.shared t q) ∧
      ∀ j c' p', (s.setThread i (some (c, q))).thread j = some (c', p') →
        p'.Obeys (spec c').rely (spec c').guar (spec c').post t := by
  obtain ⟨hG, hrest⟩ := (hobeys i c p hp).step hq
  refine ⟨hG, fun j c' p' hj => ?_⟩
  by_cases hji : j = i
  · subst hji
    rw [setThread_self] at hj
    cases hj
    exact hrest
  · rw [setThread_of_ne _ _ hji] at hj
    have hothers := hobeys j c' p' hj
    rcases hG with rfl | hG
    · exact hothers
    · exact hothers.stable (hcompat j c' p' hji hj _ _ q hG)

end Pool

end Xv6
