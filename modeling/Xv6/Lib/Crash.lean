import Xv6.Lib.Prog

/-!
# Crash safety

`after n` is the state when the execution of a program is cut off after `n` accesses, as a crash
does. `Safe C Q` is the weakest precondition of a program with a crash condition: `C` holds at every
point of the execution and `Q` at its end, and no access fails.

`restarts` is a recovery program that is itself cut off any number of times, with a reboot before
each start. The rule `Safe.restarts` says that a crash condition that the reboot and the recovery
keep holds after all of them.
-/

namespace Xv6.Prog

universe u v

variable {σ : Type u} {α : Type v}

def after : ℕ → Prog σ α → σ → σ
  | 0, _, s => s
  | n + 1, p, s => match p.step s with
    | some (q, s') => after n q s'
    | none => s

def Safe (C : σ → Prop) (Q : α → σ → Prop) : Prog σ α → σ → Prop
  | ret a, s => C s ∧ Q a s
  | read k, s => C s ∧ (k s).Safe C Q s
  | write f k, s => C s ∧ ∃ s', f s = some s' ∧ k.Safe C Q s'
  | fail, _ => False

variable {C C' : σ → Prop} {Q Q' : α → σ → Prop} {p : Prog σ α} {s : σ}

theorem Safe.start (h : p.Safe C Q s) : C s := by
  cases p with
  | ret a => exact h.1
  | read k => exact h.1
  | write f k => exact h.1
  | fail => exact h.elim

theorem Safe.mono (h : p.Safe C Q s) (hC : ∀ s, C s → C' s) (hQ : ∀ a s, Q a s → Q' a s) :
    p.Safe C' Q' s := by
  induction p generalizing s with
  | ret a => exact ⟨hC s h.1, hQ a s h.2⟩
  | read k ih => exact ⟨hC s h.1, ih s h.2⟩
  | write f k ih =>
    obtain ⟨hs, s', hf, hk⟩ := h
    exact ⟨hC s hs, s', hf, ih hk⟩
  | fail => exact h

theorem Safe.bind {α β : Type v} {Q : β → σ → Prop} {p : Prog σ α} {f : α → Prog σ β} {s : σ}
    (h : p.Safe C (fun a s' => (f a).Safe C Q s') s) : (p >>= f).Safe C Q s := by
  show (p.bind f).Safe C Q s
  induction p generalizing s with
  | ret a => exact h.2
  | read k ih => exact ⟨h.1, ih s h.2⟩
  | write g k ih =>
    obtain ⟨hC, s', hg, hk⟩ := h
    exact ⟨hC, s', hg, ih hk⟩
  | fail => exact h

theorem Safe.after (h : p.Safe C Q s) (n : ℕ) : C (p.after n s) := by
  induction n generalizing p s with
  | zero => exact h.start
  | succ n ih =>
    cases p with
    | ret a => exact h.1
    | read k => exact ih h.2
    | write f k =>
      obtain ⟨-, s', hf, hk⟩ := h
      simp only [Prog.after, step, hf]
      exact ih hk
    | fail => exact h.elim

theorem Safe.step {q : Prog σ α} {s' : σ} (h : p.Safe C Q s) (hs : p.step s = some (q, s')) :
    q.Safe C Q s' := by
  cases p with
  | ret a => cases hs
  | read k =>
    obtain ⟨rfl, rfl⟩ : k s = q ∧ s = s' := by simpa [Prog.step] using hs
    exact h.2
  | write f k =>
    obtain ⟨-, t, hf, hk⟩ := h
    simp only [Prog.step, hf] at hs
    obtain ⟨rfl, rfl⟩ : k = q ∧ t = s' := by simpa using hs
    exact hk
  | fail => exact h.elim

theorem Safe.exec (h : p.Safe C Q s) : ∃ a s', p.exec s = some (a, s') ∧ Q a s' := by
  induction p generalizing s with
  | ret a => exact ⟨a, s, rfl, h.2⟩
  | read k ih => exact ih s h.2
  | write f k ih =>
    obtain ⟨-, s', hf, hk⟩ := h
    simp only [Prog.exec, hf]
    exact ih hk
  | fail => exact h.elim

theorem Safe.get_bind {α β : Type v} {Q : β → σ → Prop} {g : σ → Option α} {f : α → Prog σ β}
    {a : α} (hC : C s) (hg : g s = some a) (h : (f a).Safe C Q s) : (get g >>= f).Safe C Q s := by
  refine Safe.bind ⟨hC, ?_⟩
  simp only [hg]
  exact ⟨hC, h⟩

theorem Safe.set {Q : PUnit → σ → Prop} {f : σ → Option σ} {s' : σ} (hC : C s)
    (hf : f s = some s') (hC' : C s') (hQ : Q ⟨⟩ s') : (set f).Safe C Q s :=
  ⟨hC, s', hf, hC', hQ⟩

theorem Safe.forRange {body : ℕ → Prog σ PUnit} {I : ℕ → σ → Prop} {l k m : ℕ} (hm : l + k = m)
    (hIC : ∀ i s, I i s → C s)
    (hbody : ∀ i s, l ≤ i → i < m → I i s → (body i).Safe C (fun _ => I (i + 1)) s) (h0 : I l s) :
    (forRange body l k).Safe C (fun _ => I m) s := by
  induction k generalizing l s with
  | zero =>
    obtain rfl : l = m := hm
    exact ⟨hIC l s h0, h0⟩
  | succ k ih =>
    have hfirst := hbody l s (Nat.le_refl l) (by omega) h0
    refine Safe.bind (hfirst.mono (fun _ h => h) fun _ t ht => ?_)
    exact ih (by omega) (fun i s h1 h2 => hbody i s (by omega) h2) ht

def restarts (reboot : σ → σ) (p : Prog σ α) (cuts : List ℕ) (s : σ) : σ :=
  cuts.foldl (fun s n => p.after n (reboot s)) s

/-- A crash condition that the recovery keeps from every reboot holds after any number of restarts.
-/
theorem Safe.restarts {reboot : σ → σ} (hsafe : ∀ s, C s → p.Safe C Q (reboot s)) (h : C s)
    (cuts : List ℕ) : C (p.restarts reboot cuts s) := by
  induction cuts generalizing s with
  | nil => exact h
  | cons n cuts ih => exact ih ((hsafe s h).after n)

end Xv6.Prog
