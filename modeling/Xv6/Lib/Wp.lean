import Xv6.Lib.Task

/-!
# Weakest preconditions of tasks

`Task.Wp R D Q t s` says of a task that runs from `s`, while others may change the state as `R` lets
them before each of its operations: no operation has to wait, and it ends with `Q` of its result and
the state, or panics with `D`. `Task.exec` runs a task alone, and `Wp.exec` is what `Wp` says of it.
`Task.map` makes of a task one over other operations, which may be those of a larger state.
-/

namespace Xv6.Task

variable {ω σ α β : Type} {ρ : ω → Type} {perform : (o : ω) → σ → Option (ρ o × σ)}

def exec (perform : (o : ω) → σ → Option (ρ o × σ)) : Task ω ρ α → σ → Option ((α ⊕ String) × σ)
  | ret a, s => some (.inl a, s)
  | op o k, s =>
    match perform o s with
    | some x => (k x.1).exec perform x.2
    | none => none
  | panic why, s => some (.inr why, s)

theorem bind_assoc {γ : Type} (p : Task ω ρ α) (f : α → Task ω ρ β) (g : β → Task ω ρ γ) :
    p >>= f >>= g = p >>= fun a => f a >>= g := by
  show (p.bind f).bind g = p.bind fun a => (f a).bind g
  induction p with
  | ret a => rfl
  | op o k ih => exact congrArg (op o) (funext ih)
  | panic why => rfl

theorem exec_bind (p : Task ω ρ α) (f : α → Task ω ρ β) (s : σ) :
    (p >>= f).exec perform s = (p.exec perform s).bind fun x =>
      x.1.elim (fun a => (f a).exec perform x.2) fun why => some (.inr why, x.2) := by
  show (p.bind f).exec perform s = _
  induction p generalizing s with
  | ret a => rfl
  | op o k ih =>
    simp only [bind, exec]
    cases perform o s with
    | none => rfl
    | some x => exact ih x.1 x.2
  | panic why => rfl

theorem exec_bind_congr {p : Task ω ρ α} {f g : α → Task ω ρ β} {s : σ}
    (h : ∀ a s', (f a).exec perform s' = (g a).exec perform s') :
    (p >>= f).exec perform s = (p >>= g).exec perform s := by
  simp only [exec_bind, h]

def Wp (perform : (o : ω) → σ → Option (ρ o × σ)) (R : σ → σ → Prop) (D : String → σ → Prop)
    (Q : α → σ → Prop) : Task ω ρ α → σ → Prop
  | ret a, s => Q a s
  | op o k, s => ∀ s₁, R s s₁ → ∃ r s', perform o s₁ = some (r, s') ∧ (k r).Wp perform R D Q s'
  | panic why, s => D why s

variable {R : σ → σ → Prop} {D : String → σ → Prop} {Q Q' : α → σ → Prop} {t : Task ω ρ α} {s : σ}

theorem wp_call {o : ω} {Q : ρ o → σ → Prop} :
    (call o : Task ω ρ (ρ o)).Wp perform R D Q s ↔
      ∀ s₁, R s s₁ → ∃ r s', perform o s₁ = some (r, s') ∧ Q r s' := Iff.rfl

theorem wp_bind {p : Task ω ρ β} {f : β → Task ω ρ α} :
    (p >>= f).Wp perform R D Q s ↔
      p.Wp perform R D (fun b s => (f b).Wp perform R D Q s) s := by
  show (p.bind f).Wp perform R D Q s ↔ _
  induction p generalizing s with
  | ret b => exact Iff.rfl
  | op o k ih =>
    refine forall_congr' fun s₁ => imp_congr_right fun _ => ?_
    exact exists_congr fun r => exists_congr fun s' => and_congr_right fun _ => ih r
  | panic why => exact Iff.rfl

theorem Wp.mono (h : t.Wp perform R D Q s) (hQ : ∀ a s, Q a s → Q' a s) :
    t.Wp perform R D Q' s := by
  induction t generalizing s with
  | ret a => exact hQ a s h
  | op o k ih =>
    intro s₁ hR
    obtain ⟨r, s', hperform, hk⟩ := h s₁ hR
    exact ⟨r, s', hperform, ih r hk⟩
  | panic why => exact h

theorem Wp.exec (hR : ∀ s, R s s) (h : t.Wp perform R D Q s) :
    (∃ a s', t.exec perform s = some (.inl a, s') ∧ Q a s') ∨
      ∃ why s', t.exec perform s = some (.inr why, s') ∧ D why s' := by
  induction t generalizing s with
  | ret a => exact .inl ⟨a, s, rfl, h⟩
  | op o k ih =>
    obtain ⟨r, s', hperform, hk⟩ := h s (hR s)
    simp only [Task.exec, hperform]
    exact ih r hk
  | panic why => exact .inr ⟨why, s, rfl, h⟩

/-! ## Other operations -/

section Map

variable {ω' τ : Type} {ρ' : ω' → Type} {perform' : (o : ω') → τ → Option (ρ' o × τ)} {f : ω → ω'}
  {g : (o : ω) → ρ' (f o) → ρ o} (put : σ → τ)

def map (f : ω → ω') (g : (o : ω) → ρ' (f o) → ρ o) : Task ω ρ α → Task ω' ρ' α
  | ret a => ret a
  | op o k => op (f o) fun r => (k (g o r)).map f g
  | panic why => panic why

variable (hput : ∀ o s, (perform' (f o) (put s)).map (fun x => (g o x.1, x.2)) =
  (perform o s).map fun x => (x.1, put x.2))
include hput

theorem exec_map (t : Task ω ρ α) (s : σ) :
    (t.map f g).exec perform' (put s) = (t.exec perform s).map fun x => (x.1, put x.2) := by
  induction t generalizing s with
  | ret a => rfl
  | op o k ih =>
    have h := hput o s
    simp only [map, exec]
    cases hp : perform o s with
    | none =>
      rw [hp] at h
      rw [Option.map_eq_none_iff.1 h]
      rfl
    | some x =>
      rw [hp] at h
      obtain ⟨y, hy, heq⟩ := Option.map_eq_some_iff.1 h
      obtain ⟨hr, hs⟩ := Prod.mk.inj heq
      rw [hy]
      dsimp only
      rw [hr, hs]
      exact ih x.1 x.2
  | panic why => rfl

theorem Wp.map {D : String → τ → Prop} {Q : α → τ → Prop}
    (h : t.Wp perform (· = ·) (fun why s => D why (put s)) (fun a s => Q a (put s)) s) :
    (t.map f g).Wp perform' (· = ·) D Q (put s) := by
  induction t generalizing s with
  | ret a => exact h
  | op o k ih =>
    rintro _ rfl
    obtain ⟨r, s', hp, hk⟩ := h s rfl
    have hmap := hput o s
    rw [hp] at hmap
    obtain ⟨⟨r', u⟩, hy, heq⟩ := Option.map_eq_some_iff.1 hmap
    obtain ⟨hr, rfl⟩ : g o r' = r ∧ u = put s' := Prod.mk.inj heq
    exact ⟨r', put s', hy, ih _ (hr ▸ hk)⟩
  | panic why => exact h

end Map

theorem Follows.exec_only {ok : ω → Prop} {I : σ → Prop} {Q : α → Unit → Prop}
    (hI : ∀ o s r s', ok o → perform o s = some (r, s') → I s → I s')
    (h : t.Follows (.only ok) Q ()) (hs : I s) {x : α ⊕ String} {s' : σ}
    (hexec : t.exec perform s = some (x, s')) : I s' ∧ ∀ a, x = .inl a → Q a () := by
  induction t generalizing s with
  | ret a =>
    cases hexec
    refine ⟨hs, fun a' ha => ?_⟩
    obtain rfl := Sum.inl.inj ha
    exact h
  | op o k ih =>
    unfold Task.exec at hexec
    cases hp : perform o s with
    | none =>
      rw [hp] at hexec
      cases hexec
    | some y =>
      rw [hp] at hexec
      exact ih y.1 (h.2 y.1 trivial) (hI o s y.1 y.2 h.1 hp hs) hexec
  | panic why =>
    cases hexec
    exact ⟨hs, nofun⟩

end Xv6.Task
