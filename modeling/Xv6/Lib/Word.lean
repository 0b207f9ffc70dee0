import Xv6.Lib.Ring

/-!
# Words

Arithmetic of C's `unsigned int`, on natural numbers. Counters of this type that only ever grow
still index a ring, whatever they have wrapped to, when the size of the ring divides 2^32.
-/

namespace Xv6

@[irreducible] def uint (n : ℕ) : ℕ := n % 4294967296

theorem uint_lt (n : ℕ) : uint n < 4294967296 := by
  unfold uint
  exact Nat.mod_lt _ (by decide)

theorem uint_of_lt {n : ℕ} (h : n < 4294967296) : uint n = n := by
  unfold uint
  exact Nat.mod_eq_of_lt h

def sint (n : ℕ) : ℤ := if n < 2147483648 then n else (n : ℤ) - 4294967296

def uintOf (z : ℤ) : ℕ := (z % 4294967296).toNat

theorem uintOf_lt (z : ℤ) : uintOf z < 4294967296 := by
  unfold uintOf
  omega

theorem uintOf_of_nonneg {z : ℤ} (h0 : 0 ≤ z) (hlt : z < 4294967296) : (uintOf z : ℤ) = z := by
  unfold uintOf
  omega

theorem uintOf_sint {n : ℕ} (h : n < 4294967296) : uintOf (sint n) = n := by
  unfold uintOf sint
  split <;> omega

namespace Ring

variable {n : ℕ} {α : Type*} (hn : 0 < n) (hdvd : n ∣ 4294967296)

include hdvd

theorem cell_uint (i : ℕ) : cell hn (uint i) = cell hn i := by
  unfold uint
  exact cell_word hn hdvd i

theorem window_uint (a : Fin n → α) (i len : ℕ) :
    window hn a (uint i) len = window hn a i len := by
  unfold uint
  exact window_word hn hdvd a i len

end Ring

end Xv6
