import Mathlib.Data.List.Nodup
import Mathlib.Data.List.Perm.Basic
import Mathlib.Logic.Function.Basic

/-!
# Circular linked lists

The nodes of a list with one pointer each are the elements of a type, and `next` is the pointer.
`Path next x l y` says that from `x` the pointers lead through `l` to `y`; a circular list through
`x` is a path from `x` back to it. It can be entered at any of its nodes (`Path.rotate`), and `seek`
is a loop around it that ends where a test holds.
-/

namespace Xv6.Cycle

open Function

variable {α : Type*} {next next' : α → α} {x y z a : α} {l l₁ l₂ : List α}

def Path (next : α → α) : α → List α → α → Prop
  | x, [], y => next x = y
  | x, a :: l, y => next x = a ∧ Path next a l y

def lastOf : α → List α → α
  | x, [] => x
  | _, a :: l => lastOf a l

def seek (next : α → α) (stop : α → Bool) : ℕ → α → Option α
  | 0, _ => none
  | fuel + 1, x => if stop x then some x else seek next stop fuel (next x)

/-! ## Paths -/

theorem path_append : Path next x (l₁ ++ a :: l₂) y ↔ Path next x l₁ a ∧ Path next a l₂ y := by
  induction l₁ generalizing x with
  | nil => exact Iff.rfl
  | cons b l₁ ih =>
    rw [List.cons_append, Path, Path, ih, and_assoc]

theorem Path.split (h : Path next x (l₁ ++ l₂) y) :
    Path next x l₁ (next (lastOf x l₁)) ∧ Path next (lastOf x l₁) l₂ y := by
  induction l₁ generalizing x with
  | nil => exact ⟨rfl, h⟩
  | cons b l₁ ih => exact ⟨⟨h.1, (ih h.2).1⟩, (ih h.2).2⟩

theorem Path.congr (h : Path next x l y) (heq : ∀ b ∈ x :: l, next' b = next b) :
    Path next' x l y := by
  induction l generalizing x with
  | nil => exact (heq x List.mem_cons_self).trans h
  | cons b l ih =>
    exact ⟨(heq x List.mem_cons_self).trans h.1,
      ih h.2 fun c hc => heq c (List.mem_cons_of_mem x hc)⟩

theorem lastOf_mem (x : α) (l : List α) : lastOf x l ∈ x :: l := by
  induction l generalizing x with
  | nil => exact List.mem_cons_self
  | cons b l ih => exact List.mem_cons_of_mem x (ih b)

theorem lastOf_append (x : α) (l : List α) (a : α) : lastOf x (l ++ [a]) = a := by
  induction l generalizing x with
  | nil => rfl
  | cons b l ih => exact ih b

theorem Path.next_lastOf (h : Path next x l y) : next (lastOf x l) = y := by
  induction l generalizing x with
  | nil => exact h
  | cons b l ih => exact ih h.2

theorem Path.map_next (h : Path next x l y) : (x :: l).map next = l ++ [y] := by
  induction l generalizing x with
  | nil => exact congrArg ([·]) h
  | cons b l ih =>
    rw [List.map_cons, h.1, ih h.2]
    rfl

theorem Path.next_inj (h : Path next x l x) (hnodup : (x :: l).Nodup) (ha : a ∈ x :: l)
    (hz : z ∈ x :: l) (heq : next a = next z) : a = z := by
  have hmap : ((x :: l).map next).Nodup := by
    rw [h.map_next]
    exact (List.perm_append_singleton x l).nodup_iff.2 hnodup
  exact List.inj_on_of_nodup_map hmap ha hz heq

theorem Path.next_mem {r : α → α → Prop} (h : Path next x l y) (hsorted : (x :: l).Pairwise r)
    (ha : a ∈ x :: l) : a = lastOf x l ∨ next a ∈ l ∧ r a (next a) := by
  induction l generalizing x with
  | nil => exact .inl (List.mem_singleton.1 ha)
  | cons b l ih =>
    rcases List.mem_cons.1 ha with rfl | ha
    · rw [h.1]
      exact .inr ⟨List.mem_cons_self, (List.pairwise_cons.1 hsorted).1 b List.mem_cons_self⟩
    · rcases ih h.2 (List.pairwise_cons.1 hsorted).2 ha with heq | ⟨hmem, hr⟩
      · exact .inl heq
      · exact .inr ⟨List.mem_cons_of_mem b hmem, hr⟩

theorem Path.rotate (h : Path next x l x) (hy : y ∈ x :: l) :
    ∃ r, Path next y r y ∧ (y :: r).Perm (x :: l) := by
  rcases List.mem_cons.1 hy with rfl | hy
  · exact ⟨l, h, List.Perm.refl _⟩
  · obtain ⟨l₁, l₂, rfl⟩ := List.append_of_mem hy
    obtain ⟨h₁, h₂⟩ := path_append.1 h
    refine ⟨l₂ ++ x :: l₁, path_append.2 ⟨h₂, h₁⟩, ?_⟩
    show ((y :: l₂) ++ (x :: l₁)).Perm ((x :: l₁) ++ (y :: l₂))
    exact List.perm_append_comm

section Update

variable [DecidableEq α]

theorem Path.update_lastOf (h : Path next x l y) (hnodup : (x :: l).Nodup) (z : α) :
    Path (update next (lastOf x l) z) x l z := by
  induction l generalizing x with
  | nil => exact update_self ..
  | cons b l ih =>
    obtain ⟨hx, hrest⟩ := List.nodup_cons.1 hnodup
    refine ⟨?_, ih h.2 hrest⟩
    rw [update_of_ne, h.1]
    intro heq
    refine hx ?_
    rw [heq]
    exact lastOf_mem b l

theorem Path.update_of_notMem (h : Path next x l y) (ha : a ∉ x :: l) (z : α) :
    Path (update next a z) x l y := by
  refine h.congr fun b hb => update_of_ne ?_ _ _
  rintro rfl
  exact ha hb

theorem Path.enter (h : Path next x l y) (ha : a ∉ l) :
    Path (update next a (next x)) a l y := by
  cases l with
  | nil =>
    show update next a (next x) a = y
    rw [update_self]
    exact h
  | cons b l =>
    refine ⟨?_, h.2.update_of_notMem ha _⟩
    rw [update_self]
    exact h.1

theorem Path.insert (h₁ : Path next x l₁ z) (h₂ : Path next a l₂ y)
    (hnodup : (x :: l₁ ++ a :: l₂).Nodup) :
    Path (update next (lastOf x l₁) a) x (l₁ ++ a :: l₂) y := by
  obtain ⟨hfirst, -, hdisj⟩ := List.nodup_append.1 hnodup
  refine path_append.2 ⟨h₁.update_lastOf hfirst a, h₂.update_of_notMem (fun hmem => ?_) a⟩
  exact hdisj _ (lastOf_mem x l₁) _ hmem rfl

theorem Path.remove (h : Path next x (l₁ ++ a :: l₂) y) (hnodup : (x :: l₁ ++ a :: l₂).Nodup) :
    Path (update next (lastOf x l₁) (next a)) x (l₁ ++ l₂) y := by
  obtain ⟨h₁, h₂⟩ := path_append.1 h
  obtain ⟨hfirst, -, hdisj⟩ := List.nodup_append.1 hnodup
  cases l₂ with
  | nil =>
    rw [List.append_nil, show next a = y from h₂]
    exact h₁.update_lastOf hfirst y
  | cons b l₂ =>
    rw [h₂.1]
    refine path_append.2 ⟨h₁.update_lastOf hfirst b, h₂.2.update_of_notMem (fun hmem => ?_) b⟩
    exact hdisj _ (lastOf_mem x l₁) _ (List.mem_cons_of_mem a hmem) rfl

end Update

/-! ## Loops -/

theorem Path.seek_eq (h : Path next x l y) {stop : α → Bool} (ha : (x :: l).find? stop = some a)
    {fuel : ℕ} (hfuel : l.length < fuel) : seek next stop fuel x = some a := by
  induction l generalizing x fuel with
  | nil =>
    obtain ⟨n, rfl⟩ := Nat.exists_eq_succ_of_ne_zero (Nat.ne_zero_of_lt hfuel)
    rw [seek]
    cases hx : stop x with
    | true => rwa [List.find?_cons, hx] at ha
    | false =>
      rw [List.find?_cons, hx] at ha
      cases ha
  | cons b l ih =>
    obtain ⟨n, rfl⟩ := Nat.exists_eq_succ_of_ne_zero (Nat.ne_zero_of_lt hfuel)
    rw [seek]
    cases hx : stop x with
    | true => rwa [List.find?_cons, hx] at ha
    | false =>
      rw [List.find?_cons, hx] at ha
      rw [h.1]
      exact ih h.2 ha (Nat.lt_of_succ_lt_succ hfuel)

theorem Path.seek_unique (h : Path next x l x) (hy : y ∈ x :: l) {stop : α → Bool}
    (ha : a ∈ x :: l) (hstop : stop a = true) (hunique : ∀ b ∈ x :: l, stop b = true → b = a)
    {fuel : ℕ} (hfuel : l.length < fuel) : seek next stop fuel y = some a := by
  obtain ⟨r, hr, hperm⟩ := h.rotate hy
  refine hr.seek_eq ?_ ?_
  · cases hfind : (y :: r).find? stop with
    | none => exact absurd hstop (by simpa using List.find?_eq_none.1 hfind a (hperm.mem_iff.2 ha))
    | some b =>
      obtain hb := hperm.mem_iff.1 (List.mem_of_find?_eq_some hfind)
      rw [hunique b hb (List.find?_some hfind)]
  · have hlen := hperm.length_eq
    rw [List.length_cons, List.length_cons] at hlen
    omega

end Xv6.Cycle
