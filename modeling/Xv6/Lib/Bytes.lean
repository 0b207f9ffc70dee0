import Mathlib.Algebra.Group.Nat.Defs
import Mathlib.Logic.Function.Basic
import Mathlib.Data.Nat.Notation

/-!
# Memory as bytes: words, bits and runs of bytes

A block of memory is a function from byte offsets. A C array of 32-bit unsigned words in it is
`word`, little-endian; a bitmap is `bit`, eight bits to a byte from the low end, tested and changed
with a mask as C code does; `slice` and `splice` are `memmove` out of it and into it.
-/

namespace Xv6

open Function

/-- A byte. -/
abbrev Byte := BitVec 8

/-- Memory, by offset. -/
abbrev Bytes := ℕ → Byte

namespace Bytes

variable (d : Bytes) {k l v off m : ℕ} {bs : List Byte}

/-! ## Words -/

/-- Word `k`. -/
def word (k : ℕ) : ℕ :=
  (d (4 * k)).toNat + 256 * (d (4 * k + 1)).toNat + 65536 * (d (4 * k + 2)).toNat +
    16777216 * (d (4 * k + 3)).toNat

/-- Store `v` in word `k`. -/
def setWord (k v : ℕ) : Bytes :=
  fun j => if j / 4 = k then BitVec.ofNat 8 (v / 256 ^ (j % 4)) else d j

theorem word_lt (k : ℕ) : d.word k < 4294967296 := by
  have h0 := (d (4 * k)).isLt
  have h1 := (d (4 * k + 1)).isLt
  have h2 := (d (4 * k + 2)).isLt
  have h3 := (d (4 * k + 3)).isLt
  unfold word
  omega

theorem word_setWord_self (hv : v < 4294967296) : (d.setWord k v).word k = v := by
  have h0 : 4 * k / 4 = k ∧ 4 * k % 4 = 0 := by omega
  have h1 : (4 * k + 1) / 4 = k ∧ (4 * k + 1) % 4 = 1 := by omega
  have h2 : (4 * k + 2) / 4 = k ∧ (4 * k + 2) % 4 = 2 := by omega
  have h3 : (4 * k + 3) / 4 = k ∧ (4 * k + 3) % 4 = 3 := by omega
  simp only [word, setWord, h0, h1, h2, h3, if_true, BitVec.toNat_ofNat]
  omega

theorem word_setWord_of_ne (h : l ≠ k) : (d.setWord k v).word l = d.word l := by
  have h0 : 4 * l / 4 ≠ k := by omega
  have h1 : (4 * l + 1) / 4 ≠ k := by omega
  have h2 : (4 * l + 2) / 4 ≠ k := by omega
  have h3 : (4 * l + 3) / 4 ≠ k := by omega
  simp only [word, setWord, h0, h1, h2, h3, if_false]

def ofWords (f : ℕ → ℕ) : Bytes := fun j => BitVec.ofNat 8 (f (j / 4) / 256 ^ (j % 4))

theorem word_ofWords {f : ℕ → ℕ} (h : f k < 4294967296) : (ofWords f).word k = f k := by
  have h0 : 4 * k / 4 = k ∧ 4 * k % 4 = 0 := by omega
  have h1 : (4 * k + 1) / 4 = k ∧ (4 * k + 1) % 4 = 1 := by omega
  have h2 : (4 * k + 2) / 4 = k ∧ (4 * k + 2) % 4 = 2 := by omega
  have h3 : (4 * k + 3) / 4 = k ∧ (4 * k + 3) % 4 = 3 := by omega
  simp only [word, ofWords, h0, h1, h2, h3, BitVec.toNat_ofNat]
  omega

/-- Memory of zeros. -/
def zero : Bytes := fun _ => 0#8

@[simp] theorem word_zero : zero.word k = 0 := by simp [word, zero]

/-! ## Bits -/

def bit (n : ℕ) : Bool := d (n / 8) &&& (1#8 <<< (n % 8)) != 0#8

def setBit (n : ℕ) : Bytes := update d (n / 8) (d (n / 8) ||| (1#8 <<< (n % 8)))

def clearBit (n : ℕ) : Bytes := update d (n / 8) (d (n / 8) &&& ~~~(1#8 <<< (n % 8)))

theorem getLsbD_mask {j : ℕ} (hk : k < 8) : (1#8 <<< k).getLsbD j = decide (j = k) := by
  rw [BitVec.getLsbD_shiftLeft, BitVec.getLsbD_one]
  by_cases hj : j = k
  · subst hj
    simp [hk]
  · by_cases hlt : j < k
    · simp [hj, hlt]
    · have : j - k ≠ 0 := by omega
      simp [hj, this]

theorem and_mask_bne_zero (x : Byte) (hk : k < 8) :
    (x &&& (1#8 <<< k) != 0#8) = x.getLsbD k := by
  have hmask : ∀ j, (x &&& (1#8 <<< k)).getLsbD j = (x.getLsbD j && decide (j = k)) := by
    intro j
    rw [BitVec.getLsbD_and, getLsbD_mask hk]
  cases hx : x.getLsbD k with
  | true =>
    have hne : x &&& (1#8 <<< k) ≠ 0#8 := by
      intro h0
      have hk' := hmask k
      simp [h0, hx] at hk'
    exact bne_iff_ne.2 hne
  | false =>
    have h0 : x &&& (1#8 <<< k) = 0#8 := by
      refine BitVec.eq_of_getLsbD_eq fun j _ => ?_
      rw [hmask, BitVec.getLsbD_zero]
      by_cases hj : j = k
      · rw [hj, hx, Bool.false_and]
      · simp [hj]
    rw [h0, bne_self_eq_false]

theorem bit_eq_getLsbD (n : ℕ) : d.bit n = (d (n / 8)).getLsbD (n % 8) :=
  and_mask_bne_zero _ (Nat.mod_lt _ (by decide))

theorem bit_setBit (n l : ℕ) : (d.setBit n).bit l = (d.bit l || decide (l = n)) := by
  rw [bit_eq_getLsbD, bit_eq_getLsbD, setBit]
  by_cases hbyte : l / 8 = n / 8
  · rw [hbyte, update_self, BitVec.getLsbD_or, getLsbD_mask (Nat.mod_lt _ (by decide))]
    congr 1
    exact decide_eq_decide.2 (by omega)
  · rw [update_of_ne hbyte]
    have : l ≠ n := by
      rintro rfl
      exact hbyte rfl
    simp [this]

theorem bit_clearBit (n l : ℕ) : (d.clearBit n).bit l = (d.bit l && decide (l ≠ n)) := by
  rw [bit_eq_getLsbD, bit_eq_getLsbD, clearBit]
  by_cases hbyte : l / 8 = n / 8
  · have hlt : l % 8 < 8 := Nat.mod_lt _ (by decide)
    rw [hbyte, update_self, BitVec.getLsbD_and, BitVec.getLsbD_not,
      getLsbD_mask (Nat.mod_lt _ (by decide))]
    have hiff : l % 8 = n % 8 ↔ l = n := by omega
    simp [hlt, hiff]
  · rw [update_of_ne hbyte]
    have : l ≠ n := by
      rintro rfl
      exact hbyte rfl
    simp [this]

/-! ## Runs of bytes -/

def slice (off m : ℕ) : List Byte := (List.range m).map fun j => d (off + j)

def splice (off : ℕ) (bs : List Byte) : Bytes :=
  fun j => if off ≤ j ∧ j < off + bs.length then bs.getD (j - off) 0#8 else d j

theorem splice_of_lt {j : ℕ} (h : j < off) : d.splice off bs j = d j :=
  if_neg (by omega)

theorem splice_of_le {j : ℕ} (h : off + bs.length ≤ j) : d.splice off bs j = d j :=
  if_neg (by omega)

theorem splice_add {j : ℕ} (h : j < bs.length) : d.splice off bs (off + j) = bs.getD j 0#8 := by
  rw [splice, if_pos (by omega), Nat.add_sub_cancel_left]

end Bytes

end Xv6
