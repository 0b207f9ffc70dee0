import Xv6.Lib.Bytes
import Xv6.Lib.Word
import Mathlib.Tactic.Common

/-!
# `memmove`

There are two: that of `string.c` for the kernel and that of `ulib.c` for user programs. The first
copies downwards if the destination starts inside the source, and the second always upwards, and then
it reads bytes that it has written before. So they agree as long as the destination does not start
inside the source.

Memory is a function of the address. The loops add to and subtract from pointers without wrapping
around, since what they read and write lies in the two ranges.
-/

namespace Xv6

open Function

variable {β : Type*} {m : ℕ → β} {d s n : ℕ}

def copyUp (m : ℕ → β) (d s : ℕ) : ℕ → ℕ → β
  | 0 => m
  | n + 1 => copyUp (update m d (m s)) (d + 1) (s + 1) n

def copyDown (m : ℕ → β) (d s : ℕ) : ℕ → ℕ → β
  | 0 => m
  | n + 1 => copyDown (update m (d - 1) (m (s - 1))) (d - 1) (s - 1) n

/-- `memmove` of `string.c` -/
def memmove (m : ℕ → β) (dst src n : ℕ) : ℕ → β :=
  if src < dst ∧ dst < uint (src + n) then copyDown m (dst + n) (src + n) n else copyUp m dst src n

/-- `memmove` of `ulib.c` -/
def Ulib.memmove (m : ℕ → β) (dst src : ℕ) (n : ℤ) : ℕ → β := copyUp m dst src n.toNat

def moved (m : ℕ → β) (dst src n : ℕ) : ℕ → β := fun a =>
  if dst ≤ a ∧ a < dst + n then m (src + (a - dst)) else m a

theorem moved_zero (m : ℕ → β) (d s : ℕ) : moved m d s 0 = m := funext fun _ => if_neg (by omega)

/-! ## The two loops -/

theorem copyUp_eq (h : d ≤ s ∨ s + n ≤ d) : copyUp m d s n = moved m d s n := by
  induction n generalizing m d s with
  | zero => exact (moved_zero m d s).symm
  | succ n ih =>
    rw [copyUp, ih (by omega)]
    funext a
    unfold moved
    by_cases ha : a = d
    · subst ha
      rw [if_neg (by omega), if_pos (by omega), update_self, Nat.sub_self, Nat.add_zero]
    · by_cases hin : d + 1 ≤ a ∧ a < d + 1 + n
      · -- the byte is read behind what has been written
        rw [if_pos hin, if_pos (by omega), update_of_ne (by omega)]
        congr 1
        omega
      · rw [if_neg hin, if_neg (by omega), update_of_ne ha]

theorem copyDown_eq (h : s ≤ d) : copyDown m (d + n) (s + n) n = moved m d s n := by
  induction n generalizing m with
  | zero => exact (moved_zero m d s).symm
  | succ n ih =>
    rw [copyDown, show d + (n + 1) - 1 = d + n by omega, show s + (n + 1) - 1 = s + n by omega, ih]
    funext a
    unfold moved
    by_cases ha : a = d + n
    · subst ha
      rw [if_neg (by omega), if_pos (by omega), update_self]
      congr 1
      omega
    · by_cases hin : d ≤ a ∧ a < d + n
      · rw [if_pos hin, if_pos (by omega), update_of_ne (by omega)]
      · rw [if_neg hin, if_neg (by omega), update_of_ne ha]

theorem memmove_eq (hd : d + n ≤ 4294967296) (hs : s + n ≤ 4294967296) :
    memmove m d s n = moved m d s n := by
  unfold memmove
  by_cases hdown : s < d ∧ d < uint (s + n)
  · rw [if_pos hdown, copyDown_eq hdown.1.le]
  · rw [if_neg hdown, copyUp_eq]
    rcases hs.lt_or_eq with hlt | heq
    · rw [uint_of_lt hlt] at hdown
      omega
    · -- a source that ends at the end of memory is not below the destination
      omega

/-! ## Where they differ -/

theorem copyUp_add (m : ℕ → β) (d s j k : ℕ) :
    copyUp m d s (j + k) = copyUp (copyUp m d s j) (d + j) (s + j) k := by
  induction j generalizing m d s with
  | zero => rw [Nat.zero_add]; rfl
  | succ j ih =>
    rw [show j + 1 + k = j + k + 1 by omega, copyUp, ih, copyUp, Nat.add_assoc, Nat.add_assoc,
      Nat.add_comm 1]

theorem copyUp_of_lt {a : ℕ} (h : a < d) : copyUp m d s n a = m a := by
  induction n generalizing m d s with
  | zero => rfl
  | succ n ih => rw [copyUp, ih (by omega), update_of_ne (by omega)]

theorem copyUp_repeats (hlt : s < d) (hin : d < s + n) : copyUp m d s n (d + (d - s)) = m s := by
  obtain ⟨k, hk⟩ : ∃ k, n = (d - s) + (1 + k) := ⟨n - (d - s) - 1, by omega⟩
  have hfirst : copyUp m d s (d - s) d = m s := by
    rw [copyUp_eq (.inr (by omega)), moved, if_pos (by omega), Nat.sub_self, Nat.add_zero]
  rw [hk, copyUp_add, show s + (d - s) = d by omega, copyUp_add, copyUp_of_lt (Nat.lt_succ_self _),
    copyUp, copyUp, update_self, hfirst]

/-- For two ranges that are valid, the kernel's `memmove` moves the bytes, and that of the user
library does the same to every memory if and only if the destination does not start inside the
source. -/
theorem memmove_agree_iff {n : ℤ} (hn : 0 ≤ n) (hd : d + n ≤ 4294967296)
    (hs : s + n ≤ 4294967296) :
    (∀ m : ℕ → Byte, memmove m d s n.toNat = moved m d s n.toNat) ∧
    ((∀ m : ℕ → Byte, Ulib.memmove m d s n = memmove m d s n.toNat) ↔ d ≤ s ∨ s + n ≤ d) := by
  obtain ⟨n, rfl⟩ := Int.eq_ofNat_of_zero_le hn
  have hkernel : ∀ m : ℕ → Byte, memmove m d s n = moved m d s n := fun m =>
    memmove_eq (by omega) (by omega)
  refine ⟨hkernel, fun hall => ?_, fun hcond m => ?_⟩
  · by_contra hnot
    -- a memory in which the two bytes are different
    have hbyte := congrFun ((hall (update (fun _ => 0#8) s 1#8)).trans (hkernel _))
      (d + (d - s))
    rw [Ulib.memmove, Int.toNat_natCast, copyUp_repeats (by omega) (by omega), moved,
      if_pos (by omega), update_self, update_of_ne (by omega)] at hbyte
    cases hbyte
  · rw [Int.toNat_natCast, hkernel m]
    exact copyUp_eq (by omega)

theorem memmove_agree_iff_down :
    (∀ m : ℕ → Byte, memmove m 100 101 (3 : ℤ).toNat = moved m 100 101 (3 : ℤ).toNat) ∧
    ((∀ m : ℕ → Byte, Ulib.memmove m 100 101 3 = memmove m 100 101 (3 : ℤ).toNat) ↔
      100 ≤ 101 ∨ ((101 : ℕ) : ℤ) + 3 ≤ (100 : ℕ)) :=
  memmove_agree_iff (by decide) (by decide) (by decide)

/-- Two bytes, one byte on: the second one is lost. -/
theorem ulib_memmove_overwrites :
    Ulib.memmove (fun a => BitVec.ofNat 8 a) 1 0 2 2 = 0#8 ∧
      memmove (fun a => BitVec.ofNat 8 a) 1 0 2 2 = 1#8 ∧
      moved (fun a => BitVec.ofNat 8 a) 1 0 2 2 = 1#8 := by
  refine ⟨by decide, ?_, by decide⟩
  rw [memmove_eq (by decide) (by decide)]
  decide

end Xv6
