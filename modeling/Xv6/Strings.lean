import Xv6.Lib.Bytes
import Mathlib.Data.Int.Notation
import Mathlib.Tactic.Common

/-!
# `strncmp` and `strncpy`

The string functions of `string.c` that compare and copy at most `n` characters. A pointer is the
sequence of the characters from it on. Both stop at the first zero, which need not be there, so all
that they see of a string is `text`: its characters up to the first zero, and zeros from there on.
`strncpy` writes the text, and `strncmp` tells whether two strings agree as lists of at most `n`
characters (`cstr`).
-/

namespace Xv6

open Function

section Copy

variable {β : Type*} [DecidableEq β] [OfNat β 0]

def strnzero (s : ℕ → β) (i : ℕ) : ℕ → ℕ → β
  | 0 => s
  | n + 1 => strnzero (update s i 0) (i + 1) n

def strncpyFrom (s t : ℕ → β) (i : ℕ) : ℕ → ℕ → β
  | 0 => s
  | n + 1 =>
    let s := update s i (t i)
    if t i ≠ 0 then strncpyFrom s t (i + 1) n else strnzero s (i + 1) n

def strncpy (s t : ℕ → β) (n : ℕ) : ℕ → β := strncpyFrom s t 0 n

def text (t : ℕ → β) (k : ℕ) : β := if ∃ j < k, t j = 0 then 0 else t k

omit [DecidableEq β] in
theorem strnzero_apply (s : ℕ → β) (i n k : ℕ) :
    strnzero s i n k = if i ≤ k ∧ k < i + n then 0 else s k := by
  induction n generalizing s i with
  | zero => rw [if_neg (by omega), strnzero]
  | succ n ih =>
    unfold strnzero
    rw [ih]
    by_cases hk : k = i
    · subst hk
      rw [if_neg (by omega), if_pos (by omega), update_self]
    · rw [update_of_ne hk]
      by_cases hin : i + 1 ≤ k ∧ k < i + 1 + n
      · rw [if_pos hin, if_pos (by omega)]
      · rw [if_neg hin, if_neg (by omega)]

theorem strncpyFrom_apply (s t : ℕ → β) {i : ℕ} (n k : ℕ) (h : ∀ j < i, t j ≠ 0) :
    strncpyFrom s t i n k = if i ≤ k ∧ k < i + n then text t k else s k := by
  induction n generalizing s i with
  | zero => rw [if_neg (by omega), strncpyFrom]
  | succ n ih =>
    have htext : text t i = t i := if_neg fun ⟨j, hj, h0⟩ => h j hj h0
    unfold strncpyFrom
    by_cases h0 : t i = 0
    · -- The zero is copied, and the second loop does the rest.
      simp only [h0, ne_eq, not_true_eq_false, if_false]
      rw [strnzero_apply]
      by_cases hk : k = i
      · subst hk
        rw [if_neg (by omega), if_pos (by omega), update_self, htext, h0]
      · rw [update_of_ne hk]
        by_cases hin : i + 1 ≤ k ∧ k < i + 1 + n
        · rw [if_pos hin, if_pos (by omega), text, if_pos ⟨i, by omega, h0⟩]
        · rw [if_neg hin, if_neg (by omega)]
    · simp only [ne_eq, h0, not_false_eq_true, if_true]
      have hnext : ∀ j < i + 1, t j ≠ 0 := by
        intro j hj
        rcases Nat.lt_succ_iff_lt_or_eq.1 hj with hlt | rfl
        · exact h j hlt
        · exact h0
      rw [ih _ hnext]
      by_cases hk : k = i
      · subst hk
        rw [if_neg (by omega), if_pos (by omega), update_self, htext]
      · rw [update_of_ne hk]
        by_cases hin : i + 1 ≤ k ∧ k < i + 1 + n
        · rw [if_pos hin, if_pos (by omega)]
        · rw [if_neg hin, if_neg (by omega)]

theorem strncpy_apply (s t : ℕ → β) (n k : ℕ) :
    strncpy s t n k = if k < n then text t k else s k := by
  unfold strncpy
  rw [strncpyFrom_apply s t n k fun j hj => absurd hj (Nat.not_lt_zero j), Nat.zero_add]
  simp only [Nat.zero_le, true_and]

def cstr (t : ℕ → β) (i : ℕ) : ℕ → List β
  | 0 => []
  | n + 1 => if t i = 0 then [] else t i :: cstr t (i + 1) n

theorem cstr_eq_of_text {t u : ℕ → β} {i n : ℕ} (h : ∀ j < i, t j ≠ 0)
    (hu : ∀ k, i ≤ k → k < i + n → u k = text t k) : cstr u i n = cstr t i n := by
  induction n generalizing i with
  | zero => rfl
  | succ n ih =>
    have htext : text t i = t i := if_neg fun ⟨j, hj, h0⟩ => h j hj h0
    have hi : u i = t i := by rw [hu i (Nat.le_refl i) (by omega), htext]
    unfold cstr
    rw [hi]
    by_cases h0 : t i = 0
    · rw [if_pos h0, if_pos h0]
    · rw [if_neg h0, if_neg h0, ih (fun j hj => ?_) fun k hk hk' => hu k (by omega) (by omega)]
      rcases Nat.lt_succ_iff_lt_or_eq.1 hj with hlt | rfl
      · exact h j hlt
      · exact h0

theorem cstr_eq_of_getElem? {t : ℕ → β} {i n : ℕ} {l : List β} (h0 : 0 ∉ l) (hlen : l.length ≤ n)
    (hget : ∀ k, (hk : k < l.length) → t (i + k) = l[k])
    (hend : l.length < n → t (i + l.length) = 0) : cstr t i n = l := by
  induction n generalizing i l with
  | zero => exact (List.eq_nil_of_length_eq_zero (Nat.le_zero.1 hlen)).symm
  | succ n ih =>
    unfold cstr
    cases l with
    | nil => exact if_pos (hend (Nat.succ_pos n))
    | cons c l =>
      rw [List.length_cons] at hlen hend
      have hc : t i = c := hget 0 (Nat.succ_pos _)
      have hne : c ≠ 0 := fun hc0 => h0 (hc0 ▸ List.mem_cons_self)
      rw [hc, if_neg hne, ih (fun hl => h0 (List.mem_cons_of_mem c hl)) (by omega) ?_ fun hlt => ?_]
      · intro k hk
        rw [Nat.add_assoc, Nat.add_comm 1]
        exact hget (k + 1) (by rw [List.length_cons]; omega)
      · rw [Nat.add_assoc, Nat.add_comm 1]
        exact hend (by omega)

end Copy

/-! ## `strncmp` -/

def strncmpFrom (p q : ℕ → Byte) (i : ℕ) : ℕ → ℤ
  | 0 => 0
  | n + 1 =>
    if p i ≠ 0 ∧ p i = q i then strncmpFrom p q (i + 1) n else (p i).toNat - (q i).toNat

def strncmp (p q : ℕ → Byte) (n : ℕ) : ℤ := strncmpFrom p q 0 n

theorem strncmpFrom_eq_zero_iff {p q : ℕ → Byte} {i n : ℕ} :
    strncmpFrom p q i n = 0 ↔ cstr p i n = cstr q i n := by
  induction n generalizing i with
  | zero => exact iff_of_true rfl rfl
  | succ n ih =>
    unfold strncmpFrom cstr
    by_cases hgo : p i ≠ 0 ∧ p i = q i
    · obtain ⟨h0, heq⟩ := hgo
      rw [if_pos ⟨h0, heq⟩, ih, if_neg h0, ← heq, if_neg h0, List.cons.injEq]
      exact (and_iff_right rfl).symm
    · rw [if_neg hgo]
      by_cases heq : p i = q i
      · -- Both end here.
        have h0 : p i = 0 := not_not.1 fun h => hgo ⟨h, heq⟩
        rw [← heq, Int.sub_self, if_pos h0, if_pos h0]
        exact iff_of_true rfl rfl
      · refine iff_of_false (fun hsub => heq (BitVec.eq_of_toNat_eq (by omega))) ?_
        split
        · split
          · rename_i hp hq
            exact absurd (hp.trans hq.symm) heq
          · nofun
        · split
          · nofun
          · exact fun hcons => heq (List.cons.inj hcons).1

theorem strncmp_eq_zero_iff {p q : ℕ → Byte} {n : ℕ} :
    strncmp p q n = 0 ↔ cstr p 0 n = cstr q 0 n := strncmpFrom_eq_zero_iff

end Xv6
