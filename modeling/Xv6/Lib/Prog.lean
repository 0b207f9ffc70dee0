import Mathlib.Data.Int.Notation
import Mathlib.Data.Nat.Notation

/-!
# Programs as trees of atomic accesses to a shared state

A `Prog σ α` is a program that returns an `α` and works on a shared state `σ` one atomic access at a
time: it reads a part of the state and goes on with what it read, or replaces the state, or has
failed (an access outside an array). One definition serves several readings of the same code. `exec`
runs it alone to its end, as one atomic call. `step` takes its next access only, so that the
accesses of several programs can be interleaved, or the execution cut off.

`Reads` says that a program has no write, `Writes G` that every write is in `G`, and `Keeps f` that
no write changes `f` of the state.
-/

namespace Xv6

universe u v w

/-- A program over the shared state `σ` with result `α`. -/
inductive Prog (σ : Type u) (α : Type v) : Type (max u v)
  /-- Return `a`. -/
  | ret (a : α)
  /-- Read the shared state in one access, and continue with `k`. -/
  | read (k : σ → Prog σ α)
  /-- Replace the shared state in one access, and continue with `k`; a write that is `none` fails.
  -/
  | write (f : σ → Option σ) (k : Prog σ α)
  /-- An access has failed. -/
  | fail

namespace Prog

variable {σ : Type u} {α : Type v} {β : Type w}

def bind : Prog σ α → (α → Prog σ β) → Prog σ β
  | ret a, f => f a
  | read k, f => read fun s => (k s).bind f
  | write g k, f => write g (k.bind f)
  | fail, _ => fail

instance : Monad (Prog.{u, v} σ) where
  pure := ret
  bind := bind

def get (g : σ → Option α) : Prog σ α :=
  read fun s => match g s with
    | some a => ret a
    | none => fail

def set (f : σ → Option σ) : Prog σ PUnit.{v + 1} := write f (ret ⟨⟩)

def exec : Prog σ α → σ → Option (α × σ)
  | ret a, s => some (a, s)
  | read k, s => (k s).exec s
  | write f k, s => (f s).bind k.exec
  | fail, _ => none

def step : Prog σ α → σ → Option (Prog σ α × σ)
  | ret _, _ => none
  | read k, s => some (k s, s)
  | write f k, s => match f s with
    | some s' => some (k, s')
    | none => some (fail, s)
  | fail, _ => none

theorem bind_assoc {α β γ : Type v} (p : Prog σ α) (f : α → Prog σ β) (g : β → Prog σ γ) :
    (p >>= f) >>= g = p >>= fun a => f a >>= g := by
  show (p.bind f).bind g = p.bind fun a => (f a).bind g
  induction p with
  | ret a => rfl
  | read k ih => exact congrArg read (funext fun s => ih s)
  | write h k ih => exact congrArg (write h) ih
  | fail => rfl

/-! ## Execution -/

@[simp] theorem pure_eq_ret (a : α) : (pure a : Prog σ α) = ret a := rfl

@[simp] theorem exec_ret (a : α) (s : σ) : (ret a : Prog σ α).exec s = some (a, s) := rfl

@[simp] theorem exec_get (g : σ → Option α) (s : σ) :
    (get g).exec s = (g s).map fun a => (a, s) := by
  simp only [get, exec]
  cases g s <;> rfl

@[simp] theorem exec_set (f : σ → Option σ) (s : σ) :
    (set f).exec s = (f s).map fun s' => (⟨⟩, s') := by
  simp only [set, exec]
  cases f s <;> rfl

@[simp] theorem exec_bind {α β : Type v} (p : Prog σ α) (f : α → Prog σ β) (s : σ) :
    (p >>= f).exec s = (p.exec s).bind fun x => (f x.1).exec x.2 := by
  show (p.bind f).exec s = _
  induction p generalizing s with
  | ret a => rfl
  | read k ih => exact ih s s
  | write g k ih =>
    simp only [bind, exec]
    cases g s with
    | none => rfl
    | some s' => exact ih s'
  | fail => rfl

@[simp] theorem exec_ite {c : Prop} [Decidable c] (p q : Prog σ α) (s : σ) :
    (if c then p else q).exec s = if c then p.exec s else q.exec s := by
  split <;> rfl

/-! ## Frames -/

section Reads

variable {p q : Prog σ α}

/-- `p` has no write. -/
def Reads : Prog σ α → Prop
  | ret _ => True
  | read k => ∀ s, (k s).Reads
  | write _ _ => False
  | fail => True

theorem Reads.bind {α β : Type v} {p : Prog σ α} {k : α → Prog σ β} (hp : p.Reads)
    (hk : ∀ a, (k a).Reads) : (p >>= k).Reads := by
  show (p.bind k).Reads
  induction p with
  | ret a => exact hk a
  | read g ih => exact fun s => ih s (hp s)
  | write g r => exact hp.elim
  | fail => trivial

theorem Reads.pure (a : α) : (pure a : Prog σ α).Reads := trivial

theorem Reads.get {g : σ → Option α} : (get g).Reads := by
  intro s
  simp only
  split <;> trivial

theorem Reads.ite {c : Prop} [Decidable c] (hp : p.Reads) (hq : q.Reads) :
    (if c then p else q).Reads := by
  split
  · exact hp
  · exact hq

end Reads

section Writes

variable {G : σ → σ → Prop} {p q : Prog σ α} {s s' : σ}

def Writes (G : σ → σ → Prop) : Prog σ α → Prop
  | ret _ => True
  | read k => ∀ s, (k s).Writes G
  | write g k => (∀ s s', g s = some s' → G s s') ∧ k.Writes G
  | fail => True

abbrev Keeps {γ : Type*} (f : σ → γ) (p : Prog σ α) : Prop := p.Writes fun s s' => f s' = f s

theorem Writes.bind {α β : Type v} {p : Prog σ α} {k : α → Prog σ β} (hp : p.Writes G)
    (hk : ∀ a, (k a).Writes G) : (p >>= k).Writes G := by
  show (p.bind k).Writes G
  induction p with
  | ret a => exact hk a
  | read g ih => exact fun s => ih s (hp s)
  | write g r ih => exact ⟨hp.1, ih hp.2⟩
  | fail => trivial

theorem Reads.writes (h : p.Reads) : p.Writes G := by
  induction p with
  | ret a => trivial
  | read k ih => exact fun s => ih s (h s)
  | write g k => exact h.elim
  | fail => trivial

theorem Writes.set {f : σ → Option σ} (h : ∀ s s', f s = some s' → G s s') :
    (set f : Prog σ PUnit.{v + 1}).Writes G :=
  ⟨h, trivial⟩

theorem Writes.ite {c : Prop} [Decidable c] (hp : p.Writes G) (hq : q.Writes G) :
    (if c then p else q).Writes G := by
  split
  · exact hp
  · exact hq

theorem Writes.step (hp : p.Writes G) (h : p.step s = some (q, s')) :
    (s' = s ∨ G s s') ∧ q.Writes G := by
  cases p with
  | ret a => simp [Prog.step] at h
  | read k =>
    obtain ⟨rfl, rfl⟩ : k s = q ∧ s = s' := by simpa [Prog.step] using h
    exact ⟨.inl rfl, hp s⟩
  | write g k =>
    simp only [Prog.step] at h
    split at h
    · rename_i t ht
      obtain ⟨rfl, rfl⟩ : k = q ∧ t = s' := by simpa using h
      exact ⟨.inr (hp.1 s t ht), hp.2⟩
    · obtain ⟨rfl, rfl⟩ : fail = q ∧ s = s' := by simpa using h
      exact ⟨.inl rfl, trivial⟩
  | fail => simp [Prog.step] at h

theorem Keeps.exec {γ : Type*} {f : σ → γ} {a : α} (hp : p.Keeps f)
    (h : p.exec s = some (a, s')) : f s' = f s := by
  induction p generalizing s with
  | ret b =>
    obtain ⟨rfl, rfl⟩ : b = a ∧ s = s' := by simpa using h
    rfl
  | read k ih => exact ih s (hp s) h
  | write g k ih =>
    simp only [Prog.exec] at h
    obtain ⟨t, ht, hk⟩ := Option.bind_eq_some_iff.1 h
    rw [ih hp.2 hk, hp.1 s t ht]
  | fail => simp [Prog.exec] at h

end Writes

/-! ## Loops -/

def forRange (body : ℕ → Prog σ PUnit) : ℕ → ℕ → Prog σ PUnit
  | _, 0 => ret ⟨⟩
  | i, k + 1 => do
    body i
    forRange body (i + 1) k

theorem Writes.forRange {G : σ → σ → Prop} {body : ℕ → Prog σ PUnit} (h : ∀ i, (body i).Writes G)
    (i k : ℕ) : (forRange body i k).Writes G := by
  induction k generalizing i with
  | zero => trivial
  | succ k ih => exact (h i).bind fun _ => ih (i + 1)

def search (bound : Prog σ ℤ) (test : ℤ → Prog σ Bool) : ℕ → ℤ → Prog σ (Option ℤ)
  | 0, _ => fail
  | fuel + 1, i => do
    if i < (← bound) then
      if ← test i then return some i else search bound test fuel (i + 1)
    else return none

theorem Reads.search {bound : Prog σ ℤ} {test : ℤ → Prog σ Bool} (hb : bound.Reads)
    (ht : ∀ i, (test i).Reads) (fuel : ℕ) (i : ℤ) : (search bound test fuel i).Reads := by
  induction fuel generalizing i with
  | zero => trivial
  | succ fuel ih =>
    refine Reads.bind hb fun b => Reads.ite (Reads.bind (ht i) fun r => ?_) trivial
    exact Reads.ite trivial (ih (i + 1))

def Found (t : ℤ → Bool) (i b : ℤ) : Option ℤ → Prop
  | some j => i ≤ j ∧ j < b ∧ t j = true
  | none => ∀ j, i ≤ j → j < b → t j = false

theorem exec_search (bound : Prog σ ℤ) (fuel : ℕ) {test : ℤ → Prog σ Bool} {s : σ} {b : ℤ}
    {t : ℤ → Bool} {i : ℤ} (hb : bound.exec s = some (b, s))
    (ht : ∀ j, i ≤ j → j < b → (test j).exec s = some (t j, s)) (hfuel : (b - i).toNat < fuel) :
    ∃ r, (search bound test fuel i).exec s = some (r, s) ∧ Found t i b r := by
  induction fuel generalizing i with
  | zero => omega
  | succ fuel ih =>
    simp only [search, exec_bind, hb, Option.bind_some, exec_ite]
    by_cases hi : i < b
    · rw [if_pos hi, ht i (Int.le_refl i) hi, Option.bind_some]
      cases hti : t i with
      | true => exact ⟨some i, rfl, Int.le_refl i, hi, hti⟩
      | false =>
        obtain ⟨r, hr, hfound⟩ := ih (i := i + 1) (fun j h1 h2 => ht j (by omega) h2) (by omega)
        refine ⟨r, hr, ?_⟩
        cases r with
        | some j => exact ⟨by have := hfound.1; omega, hfound.2⟩
        | none =>
          intro j h1 h2
          rcases Int.lt_or_eq_of_le h1 with h | rfl
          · exact hfound j (by omega) h2
          · exact hti
    · rw [if_neg hi]
      exact ⟨none, rfl, fun j h1 h2 => absurd h2 (by omega)⟩

end Prog

end Xv6
