import Mathlib.Data.List.Basic

/-!
# Runs of a labelled transition system

A run is kept as its history: the events with the state after each, the newest first, so that what
happened last is at the head and what holds "since" an event is about a prefix of the list. `IsRun`
says that each entry is a step from the state before it. `Along` says that a predicate of the
history holds at every point of the run, and `Meets` that every step meets a condition on the state
before it and its event.

`IsRun.invariant` is the induction that every safety result uses, and `IsRun.along_iff_meets` the
one for a property that a step keeps exactly when it meets a condition. `history` computes a run
from a schedule, where the steps can be computed.
-/

namespace Xv6.Run

variable {σ ε : Type*}

def last (s₀ : σ) : List (ε × σ) → σ
  | [] => s₀
  | (_, s) :: _ => s

@[simp] theorem last_nil (s₀ : σ) : last s₀ ([] : List (ε × σ)) = s₀ := rfl

@[simp] theorem last_cons (s₀ : σ) (e : ε) (s : σ) (π : List (ε × σ)) :
    last s₀ ((e, s) :: π) = s := rfl

def IsRun (step : σ → ε → σ → Prop) (s₀ : σ) : List (ε × σ) → Prop
  | [] => True
  | (e, s) :: π => step (last s₀ π) e s ∧ IsRun step s₀ π

def Along (P : List (ε × σ) → Prop) : List (ε × σ) → Prop
  | [] => P []
  | x :: π => P (x :: π) ∧ Along P π

def Meets (C : σ → ε → Prop) (s₀ : σ) : List (ε × σ) → Prop
  | [] => True
  | (e, _) :: π => C (last s₀ π) e ∧ Meets C s₀ π

instance decidableMeets (C : σ → ε → Prop) [∀ s e, Decidable (C s e)] (s₀ : σ) :
    ∀ π : List (ε × σ), Decidable (Meets C s₀ π)
  | [] => isTrue trivial
  | (e, _) :: π =>
    have := decidableMeets C s₀ π
    inferInstanceAs (Decidable (C (last s₀ π) e ∧ Meets C s₀ π))

variable {step : σ → ε → σ → Prop} {s₀ : σ} {π : List (ε × σ)}

theorem Along.here {P : List (ε × σ) → Prop} (h : Along P π) : P π := by
  cases π with
  | nil => exact h
  | cons x π => exact h.1

theorem Along.mono {P Q : List (ε × σ) → Prop} (h : Along P π) (hPQ : ∀ π, P π → Q π) :
    Along Q π := by
  induction π with
  | nil => exact hPQ [] h
  | cons x π ih => exact ⟨hPQ _ h.1, ih h.2⟩

theorem Along.of_bound {B P : List (ε × σ) → Prop} (hB : ∀ x π, B (x :: π) → B π)
    (h : Along (fun π => B π → P π) π) (hπ : B π) : Along P π := by
  induction π with
  | nil => exact h hπ
  | cons x π ih => exact ⟨h.1 hπ, ih h.2 (hB x π hπ)⟩

theorem meets_of_forall {C : σ → ε → Prop} (h : ∀ s e, C s e) : Meets C s₀ π := by
  induction π with
  | nil => trivial
  | cons x π ih => exact ⟨h _ _, ih⟩

theorem Meets.mono {C D : σ → ε → Prop} (h : Meets C s₀ π) (hCD : ∀ s e, C s e → D s e) :
    Meets D s₀ π := by
  induction π with
  | nil => trivial
  | cons x π ih => exact ⟨hCD _ _ h.1, ih h.2⟩

theorem Meets.and {C D : σ → ε → Prop} (hC : Meets C s₀ π) (hD : Meets D s₀ π) :
    Meets (fun s e => C s e ∧ D s e) s₀ π := by
  induction π with
  | nil => trivial
  | cons x π ih => exact ⟨⟨hC.1, hD.1⟩, ih hC.2 hD.2⟩

theorem IsRun.along {P : List (ε × σ) → Prop} (h0 : P [])
    (hs : ∀ e s π, IsRun step s₀ π → P π → step (last s₀ π) e s → P ((e, s) :: π))
    (h : IsRun step s₀ π) : Along P π := by
  induction π with
  | nil => exact h0
  | cons x π ih =>
    obtain ⟨hx, hπ⟩ := h
    have hP := ih hπ
    exact ⟨hs x.1 x.2 π hπ hP.here hx, hP⟩

theorem IsRun.along_of_meets {C : σ → ε → Prop} {P : List (ε × σ) → Prop} (h0 : P [])
    (hs : ∀ e s π, P π → C (last s₀ π) e → step (last s₀ π) e s → P ((e, s) :: π))
    (h : IsRun step s₀ π) (hC : Meets C s₀ π) : Along P π := by
  induction π with
  | nil => exact h0
  | cons x π ih =>
    have hP := ih h.2 hC.2
    exact ⟨hs x.1 x.2 π hP.here hC.1 h.1, hP⟩

theorem IsRun.invariant_of_meets {C : σ → ε → Prop} {I : σ → Prop} (h0 : I s₀)
    (hs : ∀ s e s', I s → C s e → step s e s' → I s') (h : IsRun step s₀ π)
    (hC : Meets C s₀ π) : I (last s₀ π) :=
  (h.along_of_meets (P := fun π => I (last s₀ π)) h0 (fun e s _ hI => hs _ e s hI) hC).here

theorem IsRun.invariant {I : σ → Prop} (h0 : I s₀) (hs : ∀ s e s', I s → step s e s' → I s')
    (h : IsRun step s₀ π) : I (last s₀ π) := by
  induction π with
  | nil => exact h0
  | cons x π ih =>
    obtain ⟨e, s⟩ := x
    exact hs _ e s (ih h.2) h.1

theorem IsRun.along_iff {C : σ → ε → Prop} {I P : List (ε × σ) → Prop} (hI0 : I [])
    (hI : ∀ e s π, I π → step (last s₀ π) e s → I ((e, s) :: π)) (h0 : P [])
    (hs : ∀ e s π, I π → step (last s₀ π) e s → P π → (P ((e, s) :: π) ↔ C (last s₀ π) e))
    (h : IsRun step s₀ π) : Along P π ↔ Meets C s₀ π := by
  have hinv : Along I π := h.along hI0 fun e s π _ => hI e s π
  -- Both sides say something of the last step and of the run before it, where they agree.
  induction π with
  | nil => exact ⟨fun _ => trivial, fun _ => h0⟩
  | cons x π ih =>
    obtain ⟨e, s⟩ := x
    have hiff := ih h.2 hinv.2
    constructor
    · rintro ⟨hP, hπ⟩
      exact ⟨(hs e s π hinv.2.here h.1 hπ.here).1 hP, hiff.1 hπ⟩
    · rintro ⟨hC, hπ⟩
      have hP := hiff.2 hπ
      exact ⟨(hs e s π hinv.2.here h.1 hP.here).2 hC, hP⟩

theorem IsRun.along_iff_meets {C : σ → ε → Prop} {I P : σ → Prop} (hI0 : I s₀)
    (hI : ∀ s e s', I s → step s e s' → I s') (h0 : P s₀)
    (hs : ∀ s e s', I s → step s e s' → P s → (P s' ↔ C s e)) (h : IsRun step s₀ π) :
    Along (fun π => P (last s₀ π)) π ↔ Meets C s₀ π :=
  h.along_iff (I := fun π => I (last s₀ π)) (P := fun π => P (last s₀ π)) hI0
    (fun e s _ => hI _ e s) h0 fun e s _ => hs _ e s

/-! ## Runs given by a schedule -/

def history {τ : Type*} (next : σ → τ → Option (ε × σ)) (s₀ : σ) :
    List (ε × σ) → List τ → Option (List (ε × σ))
  | π, [] => some π
  | π, x :: xs =>
    match next (last s₀ π) x with
    | some y => history next s₀ (y :: π) xs
    | none => none

theorem isRun_of_history {τ : Type*} {next : σ → τ → Option (ε × σ)}
    (hnext : ∀ s x e s', next s x = some (e, s') → step s e s') {xs : List τ}
    {π' : List (ε × σ)} (hπ : IsRun step s₀ π) (h : history next s₀ π xs = some π') :
    IsRun step s₀ π' := by
  induction xs generalizing π with
  | nil =>
    cases h
    exact hπ
  | cons x xs ih =>
    simp only [history] at h
    split at h
    · rename_i y hy
      exact ih (π := y :: π) ⟨hnext _ _ _ _ hy, hπ⟩ h
    · cases h

section Schedule

variable {τ ρ α : Type*} {xs : List τ} {a : α}

def tick (next : σ → τ → Option σ) (s : σ) (e : τ) : Option (τ × σ) :=
  (next s e).map fun s' => (e, s')

def tickOut (next : σ → τ → Option (ρ × σ)) (s : σ) (e : τ) : Option ((τ × ρ) × σ) :=
  (next s e).map fun x => ((e, x.1), x.2)

theorem exists_run {next : σ → τ → Option (ε × σ)} {f : List (ε × σ) → α}
    (hnext : ∀ s x e s', next s x = some (e, s') → step s e s')
    (h : (history next s₀ [] xs).map f = some a) : ∃ π, IsRun step s₀ π ∧ f π = a := by
  obtain ⟨π, hπ, hf⟩ := Option.map_eq_some_iff.1 h
  exact ⟨π, isRun_of_history hnext (π := []) trivial hπ, hf⟩

theorem exists_run_tick {next : σ → τ → Option σ} {f : List (τ × σ) → α}
    (h : (history (tick next) s₀ [] xs).map f = some a) :
    ∃ π, IsRun (fun s e s' => next s e = some s') s₀ π ∧ f π = a := by
  refine exists_run (fun s x e s' hnext => ?_) h
  obtain ⟨t, ht, heq⟩ := Option.map_eq_some_iff.1 hnext
  cases heq
  exact ht

theorem exists_run_tick_if {C : σ → Prop} [DecidablePred C] {next : σ → τ → Option σ}
    {f : List (τ × σ) → α}
    (h : (history (tick fun s e => if C s then next s e else none) s₀ [] xs).map f = some a) :
    ∃ π, IsRun (fun s e s' => C s ∧ next s e = some s') s₀ π ∧ f π = a := by
  simpa only [Option.ite_none_right_eq_some] using exists_run_tick h

theorem exists_run_tickOut {next : σ → τ → Option (ρ × σ)} {f : List ((τ × ρ) × σ) → α}
    (h : (history (tickOut next) s₀ [] xs).map f = some a) :
    ∃ π, IsRun (fun s e s' => next s e.1 = some (e.2, s')) s₀ π ∧ f π = a := by
  refine exists_run (fun s x e s' hnext => ?_) h
  obtain ⟨⟨r, t⟩, ht, heq⟩ := Option.map_eq_some_iff.1 hnext
  cases heq
  exact ht

end Schedule

end Xv6.Run
