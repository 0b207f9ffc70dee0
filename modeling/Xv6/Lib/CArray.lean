import Mathlib.Data.Int.Notation
import Mathlib.Data.Nat.Notation
import Mathlib.Logic.Function.Basic

/-!
# C arrays with `int` indices

An array of `n` elements is a function on `Fin n`, and an access gives `none` where its index is
outside the array. `natCast` forms of the lemmas are for an index that is known to be in range,
which `exists_fin` turns into an element of `Fin n`.
-/

namespace Xv6.CArray

open Function

variable {n : ℕ} {α : Type*}

/-- `a[i]`. -/
def rd (a : Fin n → α) (i : ℤ) : Option α :=
  if h : 0 ≤ i ∧ i < n then some (a ⟨i.toNat, by omega⟩) else none

def upd (a : Fin n → α) (i : ℤ) (f : α → Option α) : Option (Fin n → α) :=
  if h : 0 ≤ i ∧ i < n then
    (f (a ⟨i.toNat, by omega⟩)).map (update a ⟨i.toNat, by omega⟩)
  else none

/-- `a[i] = v`. -/
def wr (a : Fin n → α) (i : ℤ) (v : α) : Option (Fin n → α) := upd a i fun _ => some v

theorem exists_fin {i : ℤ} (h0 : 0 ≤ i) (hn : i < n) : ∃ k : Fin n, i = (k : ℕ) :=
  ⟨⟨i.toNat, by omega⟩, by simp only; omega⟩

@[simp] theorem rd_natCast (a : Fin n → α) (k : Fin n) : rd a ((k : ℕ) : ℤ) = some (a k) := by
  have := k.isLt
  simp [rd]

@[simp] theorem upd_natCast (a : Fin n → α) (k : Fin n) (f : α → Option α) :
    upd a ((k : ℕ) : ℤ) f = (f (a k)).map (update a k) := by
  have := k.isLt
  simp [upd]

@[simp] theorem wr_natCast (a : Fin n → α) (k : Fin n) (v : α) :
    wr a ((k : ℕ) : ℤ) v = some (update a k v) := by
  simp [wr]

end Xv6.CArray
