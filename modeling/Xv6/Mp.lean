import Xv6.Lib.Bytes
import Xv6.Lib.Word
import Xv6.Memlayout

/-!
# The MP configuration table

`mp.c`: the search for the table that the firmware has left in memory, and `mpinit`, which looks at
its entries one after the other. The pointer is moved on inside the `switch`, and for an entry of
unknown type it is not moved: the `break` there leaves the `switch` only, and the loop comes back to
the same entry. So `mpinit` ends if and only if it meets no such entry.

Memory is a function of the virtual address. The loop of `mpinit` has a bound on its passes, and is
`none` if that is not enough.
-/

namespace Xv6.Mp

/-- Maximum number of CPUs. -/
def NCPU : ℕ := 8

/-- What `mpinit` sets: `lapic`, `cpus` with their number, `ioapicid`, its own `ismp`, and whether it
has written to the IMCR. -/
structure Mach where
  lapic : ℕ
  apicid : ℕ → ℕ
  ncpu : ℕ
  ioapicid : ℕ
  ismp : Bool
  imcr : Bool

section

variable (mem : ℕ → Byte)

/-- A `uchar` in memory. -/
def uchar (a : ℕ) : ℕ := (mem (uint a)).toNat

/-- A `ushort`. -/
def ushort (a : ℕ) : ℕ := uchar mem a + 256 * uchar mem (a + 1)

/-- A pointer or a `uint`. -/
def word (a : ℕ) : ℕ := ushort mem a + 65536 * ushort mem (a + 2)

def sum (addr len : ℕ) : ℕ := (List.range len).foldl (fun s i => s + uchar mem (addr + i)) 0 % 256

def Signed (p : ℕ) (sig : List ℕ) : Prop := (List.range 4).map (fun i => uchar mem (p + i)) = sig

instance (p : ℕ) (sig : List ℕ) : Decidable (Signed mem p sig) :=
  inferInstanceAs (Decidable (_ = _))

def P2V (a : ℕ) : ℕ := uint (a + KERNBASE)

def mpsearch1 (a len : ℕ) : Option ℕ :=
  ((List.range (len / 16)).map fun i => P2V a + 16 * i).find? fun p =>
    Signed mem p [95, 77, 80, 95] ∧ sum mem p 16 = 0

def mpsearch : Option ℕ :=
  let bda := P2V 0x400
  let p := ushort mem (bda + 0x0E) * 16
  let first :=
    if p ≠ 0 then mpsearch1 mem p 1024
    else mpsearch1 mem (uintOf ((ushort mem (bda + 0x13) * 1024 : ℕ) - 1024)) 1024
  first.orElse fun _ => mpsearch1 mem 0xF0000 0x10000

def mpconfig : Option (ℕ × ℕ) := do
  let mp ← mpsearch mem
  if word mem (mp + 4) = 0 then none
  else
    let conf := P2V (word mem (mp + 4))
    if ¬ Signed mem conf [80, 67, 77, 80] then none
    else if uchar mem (conf + 6) ≠ 1 ∧ uchar mem (conf + 6) ≠ 4 then none
    else if sum mem conf (ushort mem (conf + 4)) ≠ 0 then none
    else some (mp, conf)

def mpentry (p : ℕ) (s : Mach) : ℕ × Mach :=
  match uchar mem p with
  | 0 => -- MPPROC
    (uint (p + 20),
      if s.ncpu < NCPU then
        { s with apicid := Function.update s.apicid s.ncpu (uchar mem (p + 1)), ncpu := s.ncpu + 1 }
      else s)
  | 2 => -- MPIOAPIC
    (uint (p + 8), { s with ioapicid := uchar mem (p + 1) })
  | 1 | 3 | 4 => -- MPBUS, MPIOINTR, MPLINTR
    (uint (p + 8), s)
  | _ => (p, { s with ismp := false })

def mpinitFrom (e : ℕ) : ℕ → ℕ → Mach → Option Mach
  | 0, _, _ => none
  | fuel + 1, p, s =>
    if p < e then mpinitFrom e fuel (mpentry mem p s).1 (mpentry mem p s).2 else some s

def mpinit (fuel : ℕ) (s : Mach) : Option (Except String Mach) :=
  match mpconfig mem with
  | none => some (.error "Expect to run on an SMP")
  | some (mp, conf) => do
    let s ← mpinitFrom mem (uint (conf + ushort mem (conf + 4))) fuel (uint (conf + 44))
      { s with ismp := true, lapic := word mem (conf + 36) }
    if s.ismp = false then some (.error "Didn't find a suitable machine")
    else some (.ok (if uchar mem (mp + 12) ≠ 0 then { s with imcr := true } else s))

end

variable {mem : ℕ → Byte} {e p q k fuel : ℕ} {s : Mach}

/-! ## Entries -/

def entrySize : ℕ → Option ℕ
  | 0 => some 20
  | 1 | 2 | 3 | 4 => some 8
  | _ => none

theorem entrySize_eq_none {type : ℕ} : entrySize type = none ↔ 4 < type := by
  match type with
  | 0 | 1 | 2 | 3 | 4 => exact iff_of_false nofun (by decide)
  | n + 5 => exact iff_of_true rfl (by omega)

theorem entrySize_bounds {type : ℕ} (h : entrySize type = some k) : 0 < k ∧ k ≤ 20 := by
  unfold entrySize at h
  split at h <;> cases h <;> omega

/-- From `p` on the loop comes to `q`. -/
inductive Meets (mem : ℕ → Byte) (e : ℕ) : ℕ → ℕ → Prop
  | here (p : ℕ) : Meets mem e p p
  | next {p q k : ℕ} (hlt : p < e) (hsize : entrySize (uchar mem p) = some k)
    (h : Meets mem e (uint (p + k)) q) : Meets mem e p q

theorem mpentry_known (hsize : entrySize (uchar mem p) = some k) (s : Mach) :
    (mpentry mem p s).1 = uint (p + k) ∧ (mpentry mem p s).2.ismp = s.ismp := by
  unfold entrySize at hsize
  unfold mpentry
  split at hsize
  case h_1 h =>
    cases hsize
    rw [h]
    refine ⟨rfl, ?_⟩
    by_cases hn : s.ncpu < NCPU
    · rw [if_pos hn]
      rfl
    · rw [if_neg hn]
      rfl
  case h_6 => cases hsize
  all_goals
    next h =>
    cases hsize
    rw [h]
    exact ⟨rfl, rfl⟩

theorem mpentry_unknown (hsize : entrySize (uchar mem p) = none) (s : Mach) :
    (mpentry mem p s).1 = p := by
  have htype := entrySize_eq_none.1 hsize
  unfold mpentry
  split
  case h_6 => rfl
  all_goals omega

theorem mpinitFrom_stuck (hlt : p < e) (hsize : entrySize (uchar mem p) = none) (fuel : ℕ)
    (s : Mach) : mpinitFrom mem e fuel p s = none := by
  induction fuel generalizing s with
  | zero => rfl
  | succ fuel ih => rw [mpinitFrom, if_pos hlt, mpentry_unknown hsize, ih]

theorem mpinitFrom_of_meets (h : Meets mem e p q) (hlt : q < e)
    (hsize : entrySize (uchar mem q) = none) (fuel : ℕ) (s : Mach) :
    mpinitFrom mem e fuel p s = none := by
  induction h generalizing fuel s with
  | here p => exact mpinitFrom_stuck hlt hsize fuel s
  | next hp hk _ ih =>
    cases fuel with
    | zero => rfl
    | succ fuel =>
      rw [mpinitFrom, if_pos hp, (mpentry_known hk s).1, ih hlt hsize]

theorem mpinitFrom_ends (htop : e + 20 ≤ 4294967296)
    (hknown : ∀ q, Meets mem e p q → q < e → entrySize (uchar mem q) ≠ none)
    (hfuel : e - p < fuel) (s : Mach) :
    ∃ s', mpinitFrom mem e fuel p s = some s' ∧ s'.ismp = s.ismp := by
  induction fuel generalizing p s with
  | zero => exact absurd hfuel (Nat.not_lt_zero _)
  | succ fuel ih =>
    by_cases hlt : p < e
    · obtain ⟨k, hk⟩ := Option.ne_none_iff_exists'.1 (hknown p (.here p) hlt)
      obtain ⟨hpos, hle⟩ := entrySize_bounds hk
      have hnext : uint (p + k) = p + k := uint_of_lt (by omega)
      obtain ⟨hp, hismp⟩ := mpentry_known hk s
      obtain ⟨s', hs', hismp'⟩ := ih (fun q hq => hknown q (.next hlt hk hq)) (by omega)
        (mpentry mem p s).2
      refine ⟨s', ?_, hismp'.trans hismp⟩
      rw [mpinitFrom, if_pos hlt, hp]
      exact hs'
    · exact ⟨s, if_neg hlt, rfl⟩

/-! ## The table -/

def Known (mem : ℕ → Byte) (conf : ℕ) : Prop :=
  ∀ q, Meets mem (uint (conf + ushort mem (conf + 4))) (uint (conf + 44)) q →
    q < uint (conf + ushort mem (conf + 4)) → uchar mem q ≤ 4

/-- For a table that passes the tests, and does not lie at the end of the address space, where the
pointer past an entry would wrap: `mpinit` reaches the end of the table if it meets known entries
only, and otherwise it never ends. -/
theorem mpinit_ends_iff {mp conf : ℕ} (hconf : mpconfig mem = some (mp, conf))
    (hhead : conf + 44 < 4294967296) (htop : conf + ushort mem (conf + 4) + 20 ≤ 4294967296)
    (s : Mach) :
    (Known mem conf → ∃ s', mpinit mem 65536 s = some (.ok s')) ∧
    (¬ Known mem conf → ∀ fuel, mpinit mem fuel s = none) := by
  have he : uint (conf + ushort mem (conf + 4)) = conf + ushort mem (conf + 4) :=
    uint_of_lt (by omega)
  have hp : uint (conf + 44) = conf + 44 := uint_of_lt hhead
  have hlen : ushort mem (conf + 4) < 65536 := by
    have h0 := (mem (uint (conf + 4))).isLt
    have h1 := (mem (uint (conf + 4 + 1))).isLt
    unfold ushort uchar
    omega
  unfold mpinit
  rw [hconf]
  dsimp only
  constructor
  · intro hknown
    have hfuel : uint (conf + ushort mem (conf + 4)) - uint (conf + 44) < 65536 := by omega
    obtain ⟨s', hs', hismp⟩ := mpinitFrom_ends (by omega) (fun q hq hlt hnone =>
      Nat.not_lt_of_le (hknown q hq hlt) (entrySize_eq_none.1 hnone)) hfuel
      { s with ismp := true, lapic := word mem (conf + 36) }
    rw [hs']
    have htrue : s'.ismp = true := hismp
    exact ⟨_, if_neg (by rw [htrue]; decide)⟩
  · intro hnot fuel
    unfold Known at hnot
    push Not at hnot
    obtain ⟨q, hq, hlt, htype⟩ := hnot
    rw [mpinitFrom_of_meets hq hlt (entrySize_eq_none.2 htype)]
    rfl

def bios (type : ℕ) : ℕ → Byte := fun a =>
  if a < 2148466688 then
    if a = 2147484691 then 128#8 else if a = 2147484692 then 2#8 else 0#8
  else BitVec.ofNat 8 ((([95, 77, 80, 95, 16, 0, 15, 0, 1, 4, 129, 0, 0, 0, 0, 0] : List ℕ) ++
    [80, 67, 77, 80, 52, 0, 1, 155 - type] ++ List.replicate 36 0 ++
    [type, 0, 0, 0, 0, 0, 0, 0]).getD (a - 2148466688) 0)

/-- A CPU and nothing else. -/
def someMach : Mach := ⟨0, fun _ => 0, 0, 0, true, false⟩

theorem bios_known : Known (bios 1) 2148466704 := by
  have he : uint (2148466704 + ushort (bios 1) (2148466704 + 4)) = 2148466756 := by decide +kernel
  have hp : uint (2148466704 + 44) = 2148466748 := by decide +kernel
  have htype : uchar (bios 1) 2148466748 = 1 := by decide +kernel
  have hnext : uint (2148466748 + 8) = 2148466756 := by decide +kernel
  unfold Known
  rw [he, hp]
  intro q hq hlt
  cases hq with
  | here =>
    rw [htype]
    decide
  | next _ hsize hq =>
    rw [htype] at hsize
    cases hsize
    rw [hnext] at hq
    cases hq with
    | here => exact absurd hlt (lt_irrefl _)
    | next hlt' => exact absurd hlt' (lt_irrefl _)

theorem mpinit_ends_iff_bus : ∃ s', mpinit (bios 1) 65536 someMach = some (.ok s') := by
  have hconf : mpconfig (bios 1) = some (2148466688, 2148466704) := by decide +kernel
  exact (mpinit_ends_iff hconf (by decide) (by decide +kernel) someMach).1 bios_known

/-- An entry of type 5 in a table that passes the tests: `mpinit` does not end. -/
theorem mpinit_loops : mpconfig (bios 5) = some (2148466688, 2148466704) ∧
    ∀ fuel, mpinit (bios 5) fuel someMach = none := by
  have hconf : mpconfig (bios 5) = some (2148466688, 2148466704) := by decide +kernel
  refine ⟨hconf, fun fuel => ?_⟩
  unfold mpinit
  rw [hconf]
  dsimp only
  rw [mpinitFrom_stuck (by decide +kernel) (by decide +kernel)]
  rfl

end Xv6.Mp
