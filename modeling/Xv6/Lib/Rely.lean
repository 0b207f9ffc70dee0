import Xv6.Lib.Prog
import Mathlib.Logic.Function.Basic

/-!
# Rely and guarantee for programs that interleave

Several threads run programs on one shared state, and any of them may be preempted between any two
accesses. A thread is verified alone against a `Spec`: what the other threads may do to the shared
state meanwhile (`rely`), what each of its own writes does (`guar`), and what holds when it returns
(`post`). `Obeys` is the weakest precondition for that, and `Pool.access_obeys` is the parallel
rule: if what each thread guarantees is what the others rely on, an access of one thread leaves all
of them within their specifications.

A guarantee may speak of the rest of the program after the write, so that a write can be a point of
no return (`Only`).
-/

namespace Xv6

universe u v

/-- What a thread lets the others do: any number of changes, including none. -/
structure Rely (σ : Type u) where
  rel : σ → σ → Prop
  refl : ∀ s, rel s s
  trans : ∀ {s t r}, rel s t → rel t r → rel s r

def Rely.alone (σ : Type u) : Rely σ := ⟨Eq, fun _ => rfl, Eq.trans⟩

/-- The specification of a thread. -/
structure Spec (σ : Type u) (α : Type v) where
  rely : Rely σ
  /-- A write takes the first state to the second and leaves this program to run. -/
  guar : σ → σ → Prog σ α → Prop
  post : α → σ → Prop

namespace Prog

variable {σ : Type u} {α β : Type v} {R : Rely σ} {G : σ → σ → Prog σ α → Prop} {Q : α → σ → Prop}
  {p q : Prog σ α} {s t : σ}

def Obeys (R : Rely σ) (G : σ → σ → Prog σ α → Prop) (Q : α → σ → Prop) : Prog σ α → σ → Prop
  | ret a, s => ∀ t, R.rel s t → Q a t
  | read k, s => ∀ t, R.rel s t → (k t).Obeys R G Q t
  | write f k, s => ∀ t, R.rel s t → ∃ t', f t = some t' ∧ G t t' k ∧ k.Obeys R G Q t'
  | fail, _ => False

theorem Obeys.stable (h : p.Obeys R G Q s) (hR : R.rel s t) : p.Obeys R G Q t := by
  cases p with
  | ret a => exact fun t' ht => h t' (R.trans hR ht)
  | read k => exact fun t' ht => h t' (R.trans hR ht)
  | write f k => exact fun t' ht => h t' (R.trans hR ht)
  | fail => exact h

theorem Obeys.step (h : p.Obeys R G Q s) (hs : p.step s = some (q, t)) :
    (t = s ∨ G s t q) ∧ q.Obeys R G Q t := by
  cases p with
  | ret a => simp [Prog.step] at hs
  | read k =>
    obtain ⟨rfl, rfl⟩ : k s = q ∧ s = t := by simpa [Prog.step] using hs
    exact ⟨.inl rfl, h s (R.refl s)⟩
  | write f k =>
    obtain ⟨t', hf, hG, hk⟩ := h s (R.refl s)
    obtain ⟨rfl, rfl⟩ : k = q ∧ t' = t := by simpa [Prog.step, hf] using hs
    exact ⟨.inr hG, hk⟩
  | fail => exact h.elim

theorem Obeys.ret {a : α} (h : (ret a : Prog σ α).Obeys R G Q s) : Q a s := h s (R.refl s)

/-! ## Rules -/

theorem Obeys.mono {G' : σ → σ → Prog σ α → Prop} {Q' : α → σ → Prop} (h : p.Obeys R G Q s)
    (hG : ∀ s t q, G s t q → G' s t q) (hQ : ∀ a s, Q a s → Q' a s) : p.Obeys R G' Q' s := by
  induction p generalizing s with
  | ret a => exact fun t ht => hQ a t (h t ht)
  | read k ih => exact fun t ht => ih t (h t ht)
  | write f k ih =>
    intro t ht
    obtain ⟨t', hf, hw, hk⟩ := h t ht
    exact ⟨t', hf, hG t t' k hw, ih hk⟩
  | fail => exact h

theorem Obeys.bind {p : Prog σ β} {f : β → Prog σ α}
    (h : p.Obeys R (fun s t q => G s t (q >>= f)) (fun a t => (f a).Obeys R G Q t) s) :
    (p >>= f).Obeys R G Q s := by
  show (p.bind f).Obeys R G Q s
  induction p generalizing s with
  | ret a => exact h s (R.refl s)
  | read k ih => exact fun t ht => ih t (h t ht)
  | write g k ih =>
    intro t ht
    obtain ⟨t', hg, hw, hk⟩ := h t ht
    exact ⟨t', hg, hw, ih hk⟩
  | fail => exact h

theorem Obeys.reads_bind {p : Prog σ β} {f : β → Prog σ α}
    (h : p.Obeys R (fun _ _ _ => False) (fun a t => (f a).Obeys R G Q t) s) :
    (p >>= f).Obeys R G Q s :=
  Obeys.bind (h.mono (fun _ _ _ hF => hF.elim) fun _ _ hQ => hQ)

theorem Obeys.pure {a : α} (h : ∀ t, R.rel s t → Q a t) : (pure a : Prog σ α).Obeys R G Q s := h

theorem Obeys.get_bind {g : σ → Option β} {f : β → Prog σ α}
    (h : ∀ t, R.rel s t → ∃ a, g t = some a ∧ (f a).Obeys R G Q t) :
    (get g >>= f).Obeys R G Q s := by
  refine Obeys.reads_bind fun t ht => ?_
  obtain ⟨a, hg, hf⟩ := h t ht
  simp only [hg]
  exact fun t' ht' => hf.stable ht'

theorem Obeys.set_bind {g : σ → Option σ} {f : PUnit → Prog σ α}
    (h : ∀ t, R.rel s t → ∃ t', g t = some t' ∧ G t t' (f ⟨⟩) ∧ (f ⟨⟩).Obeys R G Q t') :
    (set g >>= f).Obeys R G Q s := h

theorem Obeys.alone_get_bind {g : σ → Option β} {f : β → Prog σ α} {a : β} (hg : g s = some a)
    (hf : (f a).Obeys (Rely.alone σ) G Q s) : (get g >>= f).Obeys (Rely.alone σ) G Q s := by
  refine Obeys.get_bind ?_
  rintro t rfl
  exact ⟨a, hg, hf⟩

theorem Obeys.alone_set_bind {g : σ → Option σ} {f : PUnit → Prog σ α} (hg : g s = some t)
    (hG : G s t (f ⟨⟩)) (hf : (f ⟨⟩).Obeys (Rely.alone σ) G Q t) :
    (set g >>= f).Obeys (Rely.alone σ) G Q s := by
  refine Obeys.set_bind ?_
  rintro r rfl
  exact ⟨t, hg, hG, hf⟩

theorem Obeys.of_exec {a : α} (hp : p.Reads) (h : p.exec s = some (a, t)) (hQ : Q a s) :
    p.Obeys (Rely.alone σ) G Q s := by
  induction p with
  | ret b =>
    obtain rfl : b = a := (Prod.mk.inj (Option.some.inj h)).1
    rintro r rfl
    exact hQ
  | read k ih =>
    rintro r rfl
    exact ih s (hp s) h
  | write f k => exact hp.elim
  | fail => cases h

theorem Obeys.search {bound : Prog σ ℤ} {test : ℤ → Prog σ Bool} {I : σ → Prop} {B l i : ℤ}
    {T : ℤ → Prop} {fuel : ℕ} (hI : ∀ s t, I s → R.rel s t → I t)
    (hb : ∀ s, I s → bound.Obeys R (fun _ _ _ => False) (fun b t => b ≤ B ∧ I t) s)
    (ht : ∀ i s, I s → l ≤ i → i < B →
      (test i).Obeys R (fun _ _ _ => False) (fun r t => (r = true → T i) ∧ I t) s)
    (hlo : l ≤ i) (hfuel : (B - i).toNat < fuel) (hs : I s) :
    (search bound test fuel i).Obeys R (fun _ _ _ => False)
      (fun r t => (∀ j, r = some j → l ≤ j ∧ j < B ∧ T j) ∧ I t) s := by
  induction fuel generalizing i s with
  | zero => omega
  | succ fuel ih =>
    refine Obeys.reads_bind ((hb s hs).mono (fun _ _ _ h => h) ?_)
    rintro b t ⟨hbB, htI⟩
    by_cases hi : i < b
    · rw [if_pos hi]
      refine Obeys.reads_bind ((ht i t htI hlo (by omega)).mono (fun _ _ _ h => h) ?_)
      rintro r t' ⟨hT, ht'⟩
      cases r with
      | true =>
        intro t'' hR
        refine ⟨fun j hj => ?_, hI t' t'' ht' hR⟩
        cases hj
        exact ⟨hlo, by omega, hT rfl⟩
      | false => exact ih (by omega) (by omega) ht'
    · rw [if_neg hi]
      exact fun t' hR => ⟨fun j hj => (by cases hj), hI t t' htI hR⟩

/-! ## Points of no return -/

def Only (A : α → Prop) : Prog σ α → Prop
  | ret a => A a
  | read k => ∀ s, (k s).Only A
  | write _ k => k.Only A
  | fail => True

theorem Only.bind {A : α → Prop} {p : Prog σ β} {f : β → Prog σ α} (h : ∀ b, (f b).Only A) :
    (p >>= f).Only A := by
  show (p.bind f).Only A
  induction p with
  | ret b => exact h b
  | read k ih => exact fun s => ih s
  | write g k ih => exact ih
  | fail => trivial

theorem Only.ite {A : α → Prop} {c : Prop} [Decidable c] (hp : p.Only A) (hq : q.Only A) :
    (if c then p else q).Only A := by
  split
  · exact hp
  · exact hq

theorem Only.step {A : α → Prop} (h : p.Only A) (hs : p.step s = some (q, t)) : q.Only A := by
  cases p with
  | ret a => simp [Prog.step] at hs
  | read k =>
    obtain ⟨rfl, -⟩ : k s = q ∧ s = t := by simpa [Prog.step] using hs
    exact h s
  | write f k =>
    simp only [Prog.step] at hs
    split at hs
    · cases hs
      exact h
    · cases hs
      trivial
  | fail => simp [Prog.step] at hs

end Prog

end Xv6
