import Mathlib.Algebra.BigOperators.Group.Finset.Basic
import Mathlib.Algebra.Order.BigOperators.Group.Finset
import Mathlib.Logic.Function.Basic

/-!
# Sums over the parties of a system

A count that the system keeps, such as a reference count, is a sum over all parties of what each of
them holds. In a step one party moves.
-/

namespace Xv6

open Function

variable {ι : Type*} [Fintype ι] [DecidableEq ι]

theorem sum_add_of_eq_of_ne {f g : ι → ℕ} (i : ι) (h : ∀ j, j ≠ i → g j = f j) :
    ∑ j, g j + f i = ∑ j, f j + g i := by
  have hrest : ∑ j ∈ Finset.univ.erase i, g j = ∑ j ∈ Finset.univ.erase i, f j :=
    Finset.sum_congr rfl fun j hj => h j (Finset.ne_of_mem_erase hj)
  rw [← Finset.add_sum_erase _ f (Finset.mem_univ i),
    ← Finset.add_sum_erase _ g (Finset.mem_univ i), hrest]
  omega

theorem sum_update {α : Type*} (f : α → ℕ) (g : ι → α) (i : ι) (a : α) :
    ∑ j, f (update g i a j) + f (g i) = ∑ j, f (g j) + f a := by
  have hsum := sum_add_of_eq_of_ne (f := fun j => f (g j))
    (g := fun j => f (update g i a j)) i fun j hj => by rw [update_of_ne hj]
  rwa [update_self] at hsum

end Xv6
