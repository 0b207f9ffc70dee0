import Xv6.Lib.Bytes
import Xv6.Lib.Word
import Xv6.Memlayout
import Xv6.Param
import Mathlib.Tactic.Common

/-!
# System call arguments

The functions of `syscall.c` that fetch the arguments of a system call from the memory of the process.
They compare unsigned words, with sums that may wrap around. Each function here returns, with its
value, the addresses that it has read. An `int` that is used as an address is the word with the same
bits.
-/

namespace Xv6

/-- What the functions use of a process: its size, the saved stack pointer, and the memory that the
kernel sees. -/
structure Uproc where
  sz : ℕ
  esp : ℕ
  mem : Bytes

namespace Uproc

/-- `*(int*)addr` -/
def int (p : Uproc) (addr : ℕ) : ℤ :=
  sint ((p.mem addr).toNat + 256 * (p.mem (addr + 1)).toNat + 65536 * (p.mem (addr + 2)).toNat +
    16777216 * (p.mem (addr + 3)).toNat)

def fetchint (p : Uproc) (addr : ℕ) : Option ℤ × List ℕ :=
  if p.sz ≤ addr ∨ p.sz < uint (addr + 4) then (none, [])
  else (some (p.int addr), [addr, addr + 1, addr + 2, addr + 3])

def fetchstrLoop (p : Uproc) (pp s : ℕ) : ℕ → Option ℕ × List ℕ
  | 0 => (none, [])
  | n + 1 =>
    if p.mem s = 0#8 then (some (s - pp), [s])
    else ((p.fetchstrLoop pp (s + 1) n).1, s :: (p.fetchstrLoop pp (s + 1) n).2)

def fetchstr (p : Uproc) (addr : ℕ) : Option ℕ × List ℕ :=
  if p.sz ≤ addr then (none, []) else p.fetchstrLoop addr addr (p.sz - addr)

def argint (p : Uproc) (n : ℕ) : Option ℤ × List ℕ := p.fetchint (uint (p.esp + 4 + 4 * n))

/-- `argptr`: the pointer. -/
def argptr (p : Uproc) (n : ℕ) (size : ℤ) : Option ℕ × List ℕ :=
  match p.argint n with
  | (none, reads) => (none, reads)
  | (some i, reads) =>
    if size < 0 ∨ p.sz ≤ uintOf i ∨ p.sz < uint (uintOf i + uintOf size) then (none, reads)
    else (some (uintOf i), reads)

def argstr (p : Uproc) (n : ℕ) : Option (ℕ × ℕ) × List ℕ :=
  match p.argint n with
  | (none, reads) => (none, reads)
  | (some addr, reads) =>
    ((p.fetchstr (uintOf addr)).1.map fun len => (uintOf addr, len),
      reads ++ (p.fetchstr (uintOf addr)).2)

/-! ## What is checked -/

def Inside (p : Uproc) (reads : List ℕ) : Prop := ∀ a ∈ reads, a < p.sz

def IsStr (p : Uproc) (addr len : ℕ) : Prop :=
  addr + len < p.sz ∧ p.mem (addr + len) = 0#8 ∧ ∀ k < len, p.mem (addr + k) ≠ 0#8

/-- What every system call relies on. -/
structure Checks (p : Uproc) : Prop where
  fetchint : ∀ addr, p.Inside (p.fetchint addr).2 ∧
    ∀ v, (p.fetchint addr).1 = some v ↔ addr + 4 ≤ p.sz ∧ v = p.int addr
  argint : ∀ n, p.Inside (p.argint n).2 ∧
    ∀ v, (p.argint n).1 = some v ↔
      uint (p.esp + 4 + 4 * n) + 4 ≤ p.sz ∧ v = p.int (uint (p.esp + 4 + 4 * n))
  argptr : ∀ n (size : ℤ), size < 2147483648 → p.Inside (p.argptr n size).2 ∧
    ∀ pp, (p.argptr n size).1 = some pp → 0 ≤ size ∧ (pp : ℤ) + size ≤ p.sz
  fetchstr : ∀ addr, p.Inside (p.fetchstr addr).2 ∧
    ((p.fetchstr addr).1.isSome ↔ ∃ k, addr ≤ k ∧ k < p.sz ∧ p.mem k = 0#8) ∧
    ∀ len, (p.fetchstr addr).1 = some len → p.IsStr addr len
  argstr : ∀ n, p.Inside (p.argstr n).2 ∧
    (∀ v, (p.argint n).1 = some v →
      ((p.argstr n).1.isSome ↔ ∃ k, uintOf v ≤ k ∧ k < p.sz ∧ p.mem k = 0#8)) ∧
    ∀ pp len, (p.argstr n).1 = some (pp, len) →
      (∃ v, (p.argint n).1 = some v ∧ pp = uintOf v) ∧ p.IsStr pp len

theorem inside_nil (p : Uproc) : p.Inside [] := fun _ h => nomatch h

theorem inside_int {p : Uproc} {addr : ℕ} (h : addr + 4 ≤ p.sz) :
    p.Inside [addr, addr + 1, addr + 2, addr + 3] := by
  intro a ha
  simp only [List.mem_cons, List.not_mem_nil, or_false] at ha
  omega

theorem fetchstrLoop_spec (p : Uproc) {pp s n : ℕ} (hpp : pp ≤ s) (hn : s + n = p.sz) :
    p.Inside (p.fetchstrLoop pp s n).2 ∧
      ((p.fetchstrLoop pp s n).1 = none ∧ (∀ k, s ≤ k → k < p.sz → p.mem k ≠ 0#8) ∨
        ∃ len, (p.fetchstrLoop pp s n).1 = some (s + len - pp) ∧ s + len < p.sz ∧
          p.mem (s + len) = 0#8 ∧ ∀ k < len, p.mem (s + k) ≠ 0#8) := by
  induction n generalizing s with
  | zero => exact ⟨p.inside_nil, .inl ⟨rfl, fun k hk hlt => absurd hlt (by omega)⟩⟩
  | succ n ih =>
    obtain ⟨hinside, hrest⟩ := ih (s := s + 1) (by omega) (by omega)
    unfold fetchstrLoop
    by_cases h0 : p.mem s = 0#8
    · rw [if_pos h0]
      refine ⟨fun a ha => ?_, .inr ⟨0, rfl, by omega, h0, fun k hk => absurd hk (Nat.not_lt_zero k)⟩⟩
      rw [List.mem_singleton.1 ha]
      omega
    · rw [if_neg h0]
      refine ⟨fun a ha => ?_, ?_⟩
      · rcases List.mem_cons.1 ha with rfl | ha
        · omega
        · exact hinside a ha
      · rcases hrest with ⟨hnone, hall⟩ | ⟨len, hlen, hlt, hzero, hall⟩
        · refine .inl ⟨hnone, fun k hk hlt => ?_⟩
          rcases Nat.eq_or_lt_of_le hk with rfl | hk
          · exact h0
          · exact hall k hk hlt
        · refine .inr ⟨len + 1, ?_, by omega, ?_, ?_⟩
          · rw [hlen]
            congr 1
            omega
          · rw [show s + (len + 1) = s + 1 + len by omega]
            exact hzero
          · intro k hk
            cases k with
            | zero => exact h0
            | succ k =>
              rw [show s + (k + 1) = s + 1 + k by omega]
              exact hall k (by omega)

theorem fetchstr_spec (p : Uproc) (addr : ℕ) :
    p.Inside (p.fetchstr addr).2 ∧
      ((p.fetchstr addr).1.isSome ↔ ∃ k, addr ≤ k ∧ k < p.sz ∧ p.mem k = 0#8) ∧
      ∀ len, (p.fetchstr addr).1 = some len → p.IsStr addr len := by
  unfold fetchstr
  by_cases hle : p.sz ≤ addr
  · rw [if_pos hle]
    refine ⟨p.inside_nil, ⟨(fun h => nomatch h), ?_⟩, fun len h => nomatch h⟩
    rintro ⟨k, hk, hlt, -⟩
    omega
  · rw [if_neg hle]
    obtain ⟨hinside, hres⟩ := p.fetchstrLoop_spec (Nat.le_refl addr) (n := p.sz - addr) (by omega)
    refine ⟨hinside, ?_⟩
    rcases hres with ⟨hnone, hall⟩ | ⟨len, hlen, hlt, hzero, hall⟩
    · rw [hnone]
      refine ⟨⟨(fun h => nomatch h), ?_⟩, fun len h => nomatch h⟩
      rintro ⟨k, hk, hlt, h0⟩
      exact absurd h0 (hall k hk hlt)
    · rw [hlen, Nat.add_sub_cancel_left]
      refine ⟨⟨fun _ => ⟨addr + len, by omega, hlt, hzero⟩, fun _ => rfl⟩, fun len' h => ?_⟩
      cases h
      exact ⟨hlt, hzero, hall⟩

section

variable {p : Uproc} (hsz : p.sz < KERNBASE)

include hsz

theorem fetchint_spec (addr : ℕ) :
    p.Inside (p.fetchint addr).2 ∧
      ∀ v, (p.fetchint addr).1 = some v ↔ addr + 4 ≤ p.sz ∧ v = p.int addr := by
  unfold KERNBASE at hsz
  have hwrap : addr < p.sz → uint (addr + 4) = addr + 4 := fun hlt => uint_of_lt (by omega)
  unfold fetchint
  by_cases hbad : p.sz ≤ addr ∨ p.sz < uint (addr + 4)
  · rw [if_pos hbad]
    refine ⟨p.inside_nil, fun v => iff_of_false (fun h => by cases h) fun h => ?_⟩
    have := hwrap (by omega)
    omega
  · rw [if_neg hbad]
    have hle : addr + 4 ≤ p.sz := by
      have := hwrap (by omega)
      omega
    refine ⟨inside_int hle, fun v => ⟨fun h => ⟨hle, (Option.some.inj h).symm⟩, fun h => ?_⟩⟩
    rw [h.2]

theorem argint_spec (n : ℕ) :
    p.Inside (p.argint n).2 ∧ ∀ v, (p.argint n).1 = some v ↔
      uint (p.esp + 4 + 4 * n) + 4 ≤ p.sz ∧ v = p.int (uint (p.esp + 4 + 4 * n)) :=
  fetchint_spec hsz _

theorem argptr_spec (n : ℕ) {size : ℤ} (hsize : size < 2147483648) :
    p.Inside (p.argptr n size).2 ∧
      ∀ pp, (p.argptr n size).1 = some pp → 0 ≤ size ∧ (pp : ℤ) + size ≤ p.sz := by
  have hinside := (argint_spec hsz n).1
  unfold argptr
  generalize p.argint n = x at hinside
  obtain ⟨_ | i, reads⟩ := x
  · exact ⟨hinside, fun pp h => nomatch h⟩
  · simp only
    by_cases hbad : size < 0 ∨ p.sz ≤ uintOf i ∨ p.sz < uint (uintOf i + uintOf size)
    · rw [if_pos hbad]
      exact ⟨hinside, fun pp h => nomatch h⟩
    · rw [if_neg hbad]
      refine ⟨hinside, fun pp h => ?_⟩
      cases h
      simp only [not_or, not_lt, not_le] at hbad
      obtain ⟨h0, hlt, hle⟩ := hbad
      unfold KERNBASE at hsz
      have hcast := uintOf_of_nonneg h0 (by omega)
      rw [uint_of_lt (by omega)] at hle
      omega

theorem argstr_spec (n : ℕ) :
    p.Inside (p.argstr n).2 ∧
      (∀ v, (p.argint n).1 = some v →
        ((p.argstr n).1.isSome ↔ ∃ k, uintOf v ≤ k ∧ k < p.sz ∧ p.mem k = 0#8)) ∧
      ∀ pp len, (p.argstr n).1 = some (pp, len) →
        (∃ v, (p.argint n).1 = some v ∧ pp = uintOf v) ∧ p.IsStr pp len := by
  have hinside := (argint_spec hsz n).1
  unfold argstr
  generalize p.argint n = x at hinside
  obtain ⟨_ | v, reads⟩ := x
  · exact ⟨hinside, (fun v h => nomatch h), fun pp len h => nomatch h⟩
  · obtain ⟨hinside', hiff, hstr⟩ := p.fetchstr_spec (uintOf v)
    refine ⟨fun a ha => ?_, fun v' hv' => ?_, fun pp len h => ?_⟩
    · rcases List.mem_append.1 ha with ha | ha
      · exact hinside a ha
      · exact hinside' a ha
    · cases hv'
      simp only [Option.isSome_map]
      exact hiff
    · obtain ⟨len', hlen, heq⟩ := Option.map_eq_some_iff.1 h
      cases heq
      exact ⟨⟨v, rfl, rfl⟩, hstr _ hlen⟩

theorem checks : p.Checks where
  fetchint := fetchint_spec hsz
  argint := argint_spec hsz
  argptr n _ hsize := argptr_spec hsz n hsize
  fetchstr := p.fetchstr_spec
  argstr := argstr_spec hsz

end

end Uproc

end Xv6
