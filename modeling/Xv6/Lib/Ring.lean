import Mathlib.Data.Fin.Basic
import Mathlib.Logic.Function.Basic

/-!
# Rings of cells

`n` cells used as a ring. `window a i len` is the contents of `len` cells from index `i` on, where
indices count around the ring. A queue that keeps its items in a window appends by writing the
cell after it, and drops the oldest by moving its start. The indices may be words that count for
ever, if the number of cells divides the number of words.
-/

namespace Xv6.Ring

open Function

variable {n : ℕ} {α : Type*}

def cell (hn : 0 < n) (i : ℕ) : Fin n := ⟨i % n, Nat.mod_lt i hn⟩

def window (hn : 0 < n) (a : Fin n → α) (i len : ℕ) : List α :=
  (List.range len).map fun j => a (cell hn (i + j))

variable (hn : 0 < n)

@[simp] theorem length_window (a : Fin n → α) (i len : ℕ) : (window hn a i len).length = len := by
  simp [window]

theorem window_succ (a : Fin n → α) (i len : ℕ) :
    window hn a i (len + 1) = a (cell hn i) :: window hn a (i + 1) len := by
  unfold window
  rw [List.range_succ_eq_map, List.map_cons, List.map_map, Nat.add_zero]
  congr 2
  funext j
  show a (cell hn (i + (j + 1))) = a (cell hn (i + 1 + j))
  rw [Nat.add_right_comm, Nat.add_assoc]

theorem window_one (a : Fin n → α) (i : ℕ) : window hn a i 1 = [a (cell hn i)] := rfl

theorem window_add (a : Fin n → α) (i k l : ℕ) :
    window hn a i (k + l) = window hn a i k ++ window hn a (i + k) l := by
  unfold window
  rw [List.range_add, List.map_append, List.map_map]
  congr 2
  funext j
  show a (cell hn (i + (k + j))) = a (cell hn (i + k + j))
  rw [Nat.add_assoc]

theorem window_mod (a : Fin n → α) (i len : ℕ) : window hn a (i % n) len = window hn a i len := by
  unfold window
  congr 1
  funext j
  have hmod : cell hn (i % n + j) = cell hn (i + j) := Fin.ext (Nat.mod_add_mod i n j)
  rw [hmod]

theorem cell_ne (i : ℕ) {j k : ℕ} (hj : j < k) (hk : k < n) : cell hn (i + j) ≠ cell hn (i + k) := by
  intro heq
  have hval : (i + j) % n = (i + k) % n := congrArg Fin.val heq
  have hzero := Nat.sub_mod_eq_zero_of_mod_eq hval.symm
  rw [show i + k - (i + j) = k - j by omega, Nat.mod_eq_of_lt (by omega)] at hzero
  omega

theorem window_update (a : Fin n → α) (i : ℕ) {len k : ℕ} (x : α) (h : len ≤ k) (hk : k < n) :
    window hn (update a (cell hn (i + k)) x) i len = window hn a i len := by
  unfold window
  refine List.map_congr_left fun j hj => ?_
  have hlt : j < k := lt_of_lt_of_le (List.mem_range.1 hj) h
  exact update_of_ne (cell_ne hn i hlt hk) _ _

theorem window_push (a : Fin n → α) (i : ℕ) {len : ℕ} (x : α) (h : len < n) :
    window hn (update a (cell hn (i + len)) x) i (len + 1) = window hn a i len ++ [x] := by
  rw [window_add, window_update hn a i x le_rfl h, window_one, update_self]

/-! ## Words as indices -/

section Words

variable {m : ℕ} (hm : n ∣ m)

include hm

theorem cell_word (i : ℕ) : cell hn (i % m) = cell hn i :=
  Fin.ext (Nat.mod_mod_of_dvd i hm)

theorem window_word (a : Fin n → α) (i len : ℕ) : window hn a (i % m) len = window hn a i len := by
  rw [← window_mod, Nat.mod_mod_of_dvd i hm, window_mod]

end Words

end Xv6.Ring
