import Mathlib.Data.List.Nodup
import Mathlib.Logic.Function.Basic

/-!
# Null-terminated linked lists

The pointers of a singly linked list are kept in cells: the cell `none` is the variable that points
to the first node, and the cell `some b` is the link field of node `b`. A pointer that is `none` is
null. `lastCell` is the loop that C code uses to append, with a pointer to a pointer.
-/

namespace Xv6.Chain

open Function

variable {α : Type*} {link link' : Option α → Option α} {x : Option α} {b : α} {l : List α}

def IsChain (link : Option α → Option α) : Option α → List α → Prop
  | x, [] => link x = none
  | x, b :: l => link x = some b ∧ IsChain link (some b) l

def nodes (link : Option α → Option α) : ℕ → Option α → List α
  | 0, _ => []
  | fuel + 1, x =>
    match link x with
    | none => []
    | some b => b :: nodes link fuel (some b)

def lastCell (link : Option α → Option α) : ℕ → Option α → Option (Option α)
  | 0, _ => none
  | fuel + 1, x =>
    match link x with
    | none => some x
    | some b => lastCell link fuel (some b)

def endCell : Option α → List α → Option α
  | x, [] => x
  | _, b :: l => endCell (some b) l

theorem IsChain.nodes_eq (h : IsChain link x l) {fuel : ℕ} (hfuel : l.length ≤ fuel) :
    nodes link fuel x = l := by
  induction l generalizing x fuel with
  | nil =>
    cases fuel with
    | zero => rfl
    | succ fuel =>
      have hx : link x = none := h
      rw [nodes, hx]
  | cons b l ih =>
    obtain ⟨n, rfl⟩ := Nat.exists_eq_succ_of_ne_zero (Nat.ne_zero_of_lt hfuel)
    rw [nodes, h.1]
    exact congrArg (b :: ·) (ih h.2 (Nat.le_of_succ_le_succ hfuel))

theorem IsChain.lastCell_eq (h : IsChain link x l) {fuel : ℕ} (hfuel : l.length < fuel) :
    lastCell link fuel x = some (endCell x l) := by
  induction l generalizing x fuel with
  | nil =>
    obtain ⟨n, rfl⟩ := Nat.exists_eq_succ_of_ne_zero (Nat.ne_zero_of_lt hfuel)
    have hx : link x = none := h
    rw [lastCell, hx, endCell]
  | cons b l ih =>
    obtain ⟨n, rfl⟩ := Nat.exists_eq_succ_of_ne_zero (Nat.ne_zero_of_lt hfuel)
    rw [lastCell, h.1]
    exact ih h.2 (Nat.lt_of_succ_lt_succ hfuel)

theorem IsChain.congr (h : IsChain link x l) (hx : link' x = link x)
    (hl : ∀ c ∈ l, link' (some c) = link (some c)) : IsChain link' x l := by
  induction l generalizing x with
  | nil => exact hx.trans h
  | cons b l ih =>
    refine ⟨hx.trans h.1, ih h.2 (hl b List.mem_cons_self) fun c hc => ?_⟩
    exact hl c (List.mem_cons_of_mem b hc)

theorem endCell_mem (x : Option α) (l : List α) : endCell x l = x ∨ ∃ c ∈ l, endCell x l = some c := by
  induction l generalizing x with
  | nil => exact .inl rfl
  | cons c l ih =>
    rcases ih (some c) with heq | ⟨d, hd, heq⟩
    · exact .inr ⟨c, List.mem_cons_self, heq⟩
    · exact .inr ⟨d, List.mem_cons_of_mem c hd, heq⟩

variable [DecidableEq α]

theorem IsChain.append (h : IsChain link x l) (hnodup : (x :: l.map some).Nodup)
    (hb : link (some b) = none) (hx : x ≠ some b) (hl : b ∉ l) :
    IsChain (update link (endCell x l) (some b)) x (l ++ [b]) := by
  induction l generalizing x with
  | nil =>
    refine ⟨update_self .., ?_⟩
    show update link x (some b) (some b) = none
    rw [update_of_ne hx.symm, hb]
  | cons c l ih =>
    obtain ⟨hxl, hrest⟩ := List.nodup_cons.1 hnodup
    rw [List.mem_cons, not_or] at hl
    refine ⟨?_, ih h.2 hrest (fun heq => hl.1 (Option.some.inj heq).symm) hl.2⟩
    have hne : x ≠ endCell (some c) l := by
      intro heq
      refine hxl ?_
      rcases endCell_mem (some c) l with hc | ⟨d, hd, hd'⟩
      · rw [heq, hc]
        exact List.mem_map_of_mem List.mem_cons_self
      · rw [heq, hd']
        exact List.mem_map_of_mem (List.mem_cons_of_mem c hd)
    show update link (endCell (some c) l) (some b) x = some c
    rw [update_of_ne hne, h.1]

theorem IsChain.tail (h : IsChain link none (b :: l)) :
    IsChain (update link none (link (some b))) none l := by
  have hother : ∀ c : α, update link none (link (some b)) (some c) = link (some c) :=
    fun c => update_of_ne (Option.some_ne_none c) _ _
  cases l with
  | nil =>
    show update link none (link (some b)) none = none
    rw [update_self]
    exact h.2
  | cons c l =>
    refine ⟨?_, h.2.2.congr (hother c) fun d _ => hother d⟩
    rw [update_self]
    exact h.2.1

end Xv6.Chain
