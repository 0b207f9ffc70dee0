import Xv6.Malloc.Machine
import Mathlib.Data.List.Chain

/-!
# Blocks of memory

The memory that `sbrk` has handed out is cut into blocks, free ones and used ones, without a gap.
-/

namespace Xv6

/-- A block: the address of its header, its size in units, and whether it is free. -/
structure Tile where
  addr : ℕ
  size : ℕ
  free : Bool

namespace Tile

def stop (t : Tile) : ℕ := t.addr + 8 * t.size

def Covers : ℕ → List Tile → ℕ → Prop
  | a, [], b => a = b
  | a, t :: l, b => t.addr = a ∧ 0 < t.size ∧ Covers t.stop l b

def addrs (l : List Tile) : List ℕ := (l.filter Tile.free).map Tile.addr

/-- The used blocks. -/
def used (l : List Tile) : List Tile := l.filter fun t => !t.free

def Apart (t u : Tile) : Prop := ¬ (t.free = true ∧ u.free = true)

variable {a b c : ℕ} {l l₁ l₂ : List Tile} {t u : Tile}

@[simp] theorem addrs_append (l₁ l₂ : List Tile) : addrs (l₁ ++ l₂) = addrs l₁ ++ addrs l₂ := by
  simp [addrs]

@[simp] theorem used_append (l₁ l₂ : List Tile) : used (l₁ ++ l₂) = used l₁ ++ used l₂ := by
  simp [used]

theorem addrs_nil : addrs [] = [] := rfl

theorem used_nil : used [] = [] := rfl

theorem apart_of_left (h : t.free = false) : Apart t u := fun hfree =>
  Bool.false_ne_true (h.symm.trans hfree.1)

theorem apart_of_right (h : u.free = false) : Apart t u := fun hfree =>
  Bool.false_ne_true (h.symm.trans hfree.2)

theorem addrs_cons_of_free (h : t.free = true) : addrs (t :: l) = t.addr :: addrs l := by
  simp [addrs, h]

theorem addrs_cons_of_used (h : t.free = false) : addrs (t :: l) = addrs l := by
  simp [addrs, h]

theorem used_cons_of_free (h : t.free = true) : used (t :: l) = used l := by
  simp [used, h]

theorem used_cons_of_used (h : t.free = false) : used (t :: l) = t :: used l := by
  simp [used, h]

theorem mem_addrs : a ∈ addrs l ↔ ∃ t ∈ l, t.free = true ∧ t.addr = a := by
  simp [addrs, and_assoc]

theorem covers_append : Covers a (l₁ ++ l₂) c ↔ ∃ b, Covers a l₁ b ∧ Covers b l₂ c := by
  induction l₁ generalizing a with
  | nil => simp [Covers]
  | cons t l₁ ih => simp [Covers, ih, and_assoc]

theorem Covers.le (h : Covers a l b) : a ≤ b := by
  induction l generalizing a with
  | nil => exact le_of_eq h
  | cons t l ih =>
    have hle := ih h.2.2
    have haddr := h.1
    unfold stop at hle
    omega

theorem Covers.mem (h : Covers a l b) (ht : t ∈ l) :
    a ≤ t.addr ∧ t.stop ≤ b ∧ 0 < t.size ∧ t.addr % 8 = a % 8 := by
  induction l generalizing a with
  | nil => cases ht
  | cons u l ih =>
    obtain ⟨haddr, hsize, hrest⟩ := h
    rcases List.mem_cons.1 ht with rfl | ht
    · exact ⟨le_of_eq haddr.symm, hrest.le, hsize, congrArg (· % 8) haddr⟩
    · obtain ⟨h1, h2, h3, h4⟩ := ih hrest ht
      unfold stop at h1 h4
      exact ⟨by omega, h2, h3, by omega⟩

theorem Covers.pairwise (h : Covers a l b) : l.Pairwise fun t u => t.stop ≤ u.addr := by
  induction l generalizing a with
  | nil => exact List.Pairwise.nil
  | cons t l ih => exact List.pairwise_cons.2 ⟨fun u hu => (h.2.2.mem hu).1, ih h.2.2⟩

theorem Covers.length_le (h : Covers a l b) : a + 8 * l.length ≤ b := by
  induction l generalizing a with
  | nil => exact le_of_eq h
  | cons t l ih =>
    obtain ⟨haddr, hsize, hrest⟩ := h
    have hle := ih hrest
    unfold stop at hle
    rw [List.length_cons]
    omega

theorem Covers.addrs_sorted (h : Covers a l b) : (addrs l).Pairwise (· < ·) := by
  refine List.pairwise_map.2 ((h.pairwise.imp_of_mem fun {t u} ht _ hle => ?_).filter _)
  have hsize := (h.mem ht).2.2.1
  unfold stop at hle
  omega

theorem length_addrs_le (l : List Tile) : (addrs l).length ≤ l.length := by
  rw [addrs, List.length_map]
  exact List.length_filter_le _ l

theorem Covers.apart (h : Covers a l b) (hapart : l.IsChain Apart) :
    (l.filter Tile.free).Pairwise fun t u => t.stop < u.addr := by
  induction l generalizing a with
  | nil => exact List.Pairwise.nil
  | cons t l ih =>
    obtain ⟨-, -, hrest⟩ := h
    have hrec := ih hrest hapart.tail
    cases ht : t.free with
    | false => rwa [List.filter_cons_of_neg (by simp [ht])]
    | true =>
      rw [List.filter_cons_of_pos ht]
      refine List.pairwise_cons.2 ⟨fun u hu => ?_, hrec⟩
      obtain ⟨hmem, hfree⟩ := List.mem_filter.1 hu
      cases l with
      | nil => cases hmem
      | cons v l =>
        have hv : v.free = false := by
          refine Bool.eq_false_iff.2 fun hv => ?_
          exact (List.isChain_cons_cons.1 hapart).1 ⟨ht, hv⟩
        rcases List.mem_cons.1 hmem with rfl | hmem
        · rw [hfree] at hv
          cases hv
        · obtain ⟨haddr, hsize, hcovers⟩ := hrest
          have hle := (hcovers.mem hmem).1
          unfold stop at hle haddr ⊢
          omega

end Tile

end Xv6
