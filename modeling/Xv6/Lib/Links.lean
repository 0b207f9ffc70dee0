import Mathlib.Data.List.Nodup
import Mathlib.Logic.Function.Basic

/-!
# Circular doubly linked lists

The nodes of an intrusive circular list are the elements of a type, with a sentinel, the head of the
list. A pointer is an `Option`: `none` is the address of the head. `IsList l` says that from the head
the `next` pointers visit `l` and come back, and the `prev` pointers the other way round.

`unlink` and `pushFront` are the assignments that take a node out and put one in at the front, and
`walk` is a loop that follows one of the two pointers until it finds a node or is back at the head.
-/

namespace Xv6

open Function

/-- The pointers of all nodes. -/
structure Links (α : Type*) where
  next : Option α → Option α
  prev : Option α → Option α

namespace Links

variable {α : Type*}

def swap (L : Links α) : Links α := ⟨L.prev, L.next⟩

def Path (L : Links α) : Option α → List α → Option α → Prop
  | x, [], y => L.next x = y ∧ L.prev y = x
  | x, b :: l, y => (L.next x = some b ∧ L.prev (some b) = x) ∧ L.Path (some b) l y

/-- The pointers make up the list `l`. -/
structure IsList (L : Links α) (l : List α) : Prop where
  nodup : l.Nodup
  path : L.Path none l none

def walk (link : Option α → Option α) (test : α → Bool) : ℕ → Option α → Option (Option α)
  | 0, _ => none
  | _ + 1, none => some none
  | fuel + 1, some b => if test b then some (some b) else walk link test fuel (link (some b))

section Assign

variable [DecidableEq α]

def clear (L : Links α) : Links α :=
  ⟨update L.next none none, update L.prev none none⟩

def unlink (b : α) (L : Links α) : Links α :=
  let L : Links α := { L with prev := update L.prev (L.next (some b)) (L.prev (some b)) }
  { L with next := update L.next (L.prev (some b)) (L.next (some b)) }

def pushFront (b : α) (L : Links α) : Links α :=
  let L : Links α := { L with next := update L.next (some b) (L.next none) }
  let L : Links α := { L with prev := update L.prev (some b) none }
  let L : Links α := { L with prev := update L.prev (L.next none) (some b) }
  { L with next := update L.next none (some b) }

end Assign

variable {L L' : Links α} {x y : Option α} {l l₁ l₂ : List α} {b : α}

/-! ## Paths -/

theorem path_append : L.Path x (l₁ ++ b :: l₂) y ↔ L.Path x l₁ (some b) ∧ L.Path (some b) l₂ y := by
  induction l₁ generalizing x with
  | nil => exact Iff.rfl
  | cons c l₁ ih =>
    rw [List.cons_append, Path, Path, ih, ← and_assoc]

theorem Path.congr (h : L.Path x l y) (hx : L'.next x = L.next x) (hy : L'.prev y = L.prev y)
    (hl : ∀ c ∈ l, L'.next (some c) = L.next (some c) ∧ L'.prev (some c) = L.prev (some c)) :
    L'.Path x l y := by
  induction l generalizing x with
  | nil => exact ⟨hx.trans h.1, hy.trans h.2⟩
  | cons c l ih =>
    obtain ⟨⟨hnext, hprev⟩, hrest⟩ := h
    obtain ⟨hcnext, hcprev⟩ := hl c List.mem_cons_self
    exact ⟨⟨hx.trans hnext, hcprev.trans hprev⟩,
      ih hrest hcnext fun d hd => hl d (List.mem_cons_of_mem c hd)⟩

theorem Path.prev_end (h : L.Path x l y) : L.prev y = x ∨ ∃ c ∈ l, L.prev y = some c := by
  induction l generalizing x with
  | nil => exact .inl h.2
  | cons c l ih =>
    rcases ih h.2 with hc | ⟨d, hd, heq⟩
    · exact .inr ⟨c, List.mem_cons_self, hc⟩
    · exact .inr ⟨d, List.mem_cons_of_mem c hd, heq⟩

theorem Path.swap (h : L.Path x l y) : L.swap.Path y l.reverse x := by
  induction l generalizing x with
  | nil => exact ⟨h.2, h.1⟩
  | cons c l ih =>
    rw [List.reverse_cons, path_append]
    exact ⟨ih h.2, h.1.2, h.1.1⟩

theorem Path.prev_next (h : L.Path x l y) : L.prev (L.next x) = x ∧
    ∀ c ∈ l, L.prev (L.next (some c)) = some c := by
  induction l generalizing x with
  | nil =>
    refine ⟨?_, fun c hc => ?_⟩
    · rw [h.1, h.2]
    · cases hc
  | cons b l ih =>
    obtain ⟨hb, hl⟩ := ih h.2
    refine ⟨by rw [h.1.1, h.1.2], fun c hc => ?_⟩
    rcases List.mem_cons.1 hc with rfl | hc
    · exact hb
    · exact hl c hc

theorem IsList.inverse (h : L.IsList l) (hall : ∀ b, b ∈ l) (x : Option α) :
    L.prev (L.next x) = x ∧ L.next (L.prev x) = x := by
  obtain ⟨hnone, hsome⟩ := h.path.prev_next
  obtain ⟨hnone', hsome'⟩ := h.path.swap.prev_next
  cases x with
  | none => exact ⟨hnone, hnone'⟩
  | some b => exact ⟨hsome b (hall b), hsome' b (List.mem_reverse.2 (hall b))⟩

/-! ## Walks -/

theorem Path.walk_eq (h : L.Path x l none) (test : α → Bool) {fuel : ℕ} (hfuel : l.length < fuel) :
    walk L.next test fuel (L.next x) = some (l.find? test) := by
  induction l generalizing x fuel with
  | nil =>
    obtain ⟨n, rfl⟩ := Nat.exists_eq_succ_of_ne_zero (Nat.ne_of_gt hfuel)
    rw [h.1]
    rfl
  | cons c l ih =>
    rw [List.length_cons] at hfuel
    obtain ⟨n, rfl⟩ := Nat.exists_eq_succ_of_ne_zero (Nat.ne_of_gt (Nat.zero_lt_of_lt hfuel))
    rw [h.1.1, walk, List.find?_cons]
    cases test c with
    | true => rfl
    | false => exact ih h.2 (Nat.lt_of_succ_lt_succ hfuel)

theorem IsList.walk_next (h : L.IsList l) (test : α → Bool) {fuel : ℕ} (hfuel : l.length < fuel) :
    walk L.next test fuel (L.next none) = some (l.find? test) :=
  h.path.walk_eq test hfuel

theorem IsList.walk_prev (h : L.IsList l) (test : α → Bool) {fuel : ℕ} (hfuel : l.length < fuel) :
    walk L.prev test fuel (L.prev none) = some (l.reverse.find? test) :=
  h.path.swap.walk_eq test (by rwa [List.length_reverse])

/-! ## Assignments -/

section Assign

variable [DecidableEq α]

theorem isList_clear (L : Links α) : L.clear.IsList [] := by
  refine ⟨List.nodup_nil, ?_, ?_⟩
  · simp only [clear, update_self]
  · simp only [clear, update_self]

theorem Path.redirect {z : Option α} (h : L.Path x l y) (hx : ∀ c ∈ l, x ≠ some c)
    (hl : l.Nodup) (hz : ∀ c ∈ l, z ≠ some c) :
    Path ⟨update L.next (L.prev y) z, update L.prev z (L.prev y)⟩ x l z := by
  induction l generalizing x with
  | nil =>
    rw [h.2]
    exact ⟨update_self .., update_self ..⟩
  | cons c l ih =>
    obtain ⟨⟨hnext, hprev⟩, hrest⟩ := h
    obtain ⟨hc, hnodup⟩ := List.nodup_cons.1 hl
    have hcl : ∀ d ∈ l, some c ≠ some d := by
      rintro d hd heq
      cases heq
      exact hc hd
    -- The pointer that is turned is one of a later node.
    have hne : x ≠ L.prev y := by
      rcases hrest.prev_end with heq | ⟨d, hd, heq⟩
      · rw [heq]
        exact hx c List.mem_cons_self
      · rw [heq]
        exact hx d (List.mem_cons_of_mem c hd)
    refine ⟨⟨?_, ?_⟩, ih hrest hcl hnodup fun d hd => hz d (List.mem_cons_of_mem c hd)⟩
    · exact (update_of_ne hne ..).trans hnext
    · exact (update_of_ne (hz c List.mem_cons_self).symm ..).trans hprev

theorem IsList.unlink (h : L.IsList (l₁ ++ b :: l₂)) : (L.unlink b).IsList (l₁ ++ l₂) := by
  obtain ⟨hfirst, hsecond⟩ := path_append.1 h.path
  have hnodup := h.nodup
  rw [List.nodup_append] at hnodup
  obtain ⟨hl₁, hbl₂, hdisj⟩ := hnodup
  obtain ⟨hb, hl₂⟩ := List.nodup_cons.1 hbl₂
  have hb₁ : ∀ c ∈ l₁, c ≠ b := fun c hc => hdisj c hc b List.mem_cons_self
  have hdisj₂ : ∀ c ∈ l₁, ∀ d ∈ l₂, c ≠ d := fun c hc d hd =>
    hdisj c hc d (List.mem_cons_of_mem b hd)
  -- The node has other neighbours than itself, so that its own pointers stay.
  have hne : some b ≠ L.next (some b) := by
    cases l₂ with
    | nil =>
      rw [hsecond.1]
      exact nofun
    | cons c l =>
      rw [hsecond.1.1]
      rintro heq
      cases heq
      exact hb List.mem_cons_self
  have hunlink : L.unlink b = ⟨update L.next (L.prev (some b)) (L.next (some b)),
      update L.prev (L.next (some b)) (L.prev (some b))⟩ := by
    simp only [Links.unlink, update_of_ne hne]
  refine ⟨List.nodup_append.2 ⟨hl₁, hl₂, hdisj₂⟩, ?_⟩
  rw [hunlink]
  cases l₂ with
  | nil =>
    rw [List.append_nil, hsecond.1]
    exact hfirst.redirect (fun _ _ => nofun) hl₁ fun _ _ => nofun
  | cons c l =>
    obtain ⟨⟨hnext, hprev⟩, hrest⟩ := hsecond
    obtain ⟨hc, hl⟩ := List.nodup_cons.1 hl₂
    rw [hnext]
    refine path_append.2 ⟨hfirst.redirect (fun _ _ => nofun) hl₁ fun d hd heq => ?_, ?_⟩
    · exact hdisj₂ d hd c List.mem_cons_self (Option.some.inj heq).symm
    · -- The rest of the list is after both pointers that change.
      have hlast : ∀ d, d ∈ c :: l → some d ≠ L.prev (some b) := by
        intro d hd heq
        rcases hfirst.prev_end with hnone | ⟨e, he, hsome⟩
        · rw [hnone] at heq
          cases heq
        · rw [hsome] at heq
          exact hdisj₂ e he d hd (Option.some.inj heq).symm
      have hnc : (none : Option α) ≠ some c := nofun
      refine hrest.congr ?_ ?_ fun d hd => ⟨?_, ?_⟩
      · exact update_of_ne (hlast c List.mem_cons_self) ..
      · simp only [update_of_ne hnc]
      · exact update_of_ne (hlast d (List.mem_cons_of_mem c hd)) ..
      · refine update_of_ne (fun heq => ?_) ..
        cases heq
        exact hc hd

theorem IsList.pushFront (h : L.IsList l) (hb : b ∉ l) : (L.pushFront b).IsList (b :: l) := by
  refine ⟨List.nodup_cons.2 ⟨hb, h.nodup⟩, ?_⟩
  have hpath := h.path
  have hnb : (none : Option α) ≠ some b := nofun
  have hnone : update L.next (some b) (L.next none) none = L.next none :=
    update_of_ne hnb ..
  have hpush : L.pushFront b =
      ⟨update (update L.next (some b) (L.next none)) none (some b),
        update (update L.prev (some b) none) (L.next none) (some b)⟩ := by
    simp only [Links.pushFront, hnone]
  rw [hpush]
  have hnextb : update (update L.next (some b) (L.next none)) none (some b)
      (some b) = L.next none := by
    rw [update_of_ne hnb.symm, update_self]
  cases l with
  | nil =>
    rw [hpath.1] at hnextb ⊢
    refine ⟨⟨?_, ?_⟩, hnextb, ?_⟩
    · simp only [update_self]
    · simp only [update_of_ne hnb.symm, update_self]
    · simp only [update_self]
  | cons c l =>
    obtain ⟨⟨hnext, -⟩, hrest⟩ := hpath
    obtain ⟨hbc, hbl⟩ := not_or.1 (fun hmem => hb (List.mem_cons.2 hmem))
    obtain ⟨hc, -⟩ := List.nodup_cons.1 h.nodup
    have hne : ∀ d ∈ c :: l, some d ≠ some b := by
      rintro d hd heq
      cases heq
      exact hb hd
    rw [hnext] at hnextb ⊢
    refine ⟨⟨?_, ?_⟩, ⟨hnextb, ?_⟩, ?_⟩
    · simp only [update_self]
    · simp only [update_of_ne (hne c List.mem_cons_self).symm, update_self]
    · simp only [update_self]
    · refine hrest.congr ?_ ?_ fun d hd => ⟨?_, ?_⟩
      · simp only [update_of_ne (Option.some_ne_none c),
          update_of_ne (hne c List.mem_cons_self)]
      · simp only [update_of_ne (Option.some_ne_none c).symm, update_of_ne hnb]
      · simp only [update_of_ne (Option.some_ne_none d),
          update_of_ne (hne d (List.mem_cons_of_mem c hd))]
      · have hdc : some d ≠ some c := by
          rintro heq
          cases heq
          exact hc hd
        simp only [update_of_ne hdc,
          update_of_ne (hne d (List.mem_cons_of_mem c hd))]

end Assign

end Links

end Xv6
