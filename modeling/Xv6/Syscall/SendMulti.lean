import Xv6.Syscall.Args

/-!
# The arguments of `send_multi`

`sys_send_multi` takes the recipients from the user as a pointer and a length. It checks neither: it
declares a local array of the length and copies into it what the pointer points to. `Safe` is what
this should amount to, and it holds exactly if the recipients lie in the memory of the process.

The kernel stack is not modelled. It is one page, so that an array of 1024 recipients or more is
outside of it, even where all of them lie in the memory of the process.
-/

namespace Xv6.Uproc

def recipients (d len : ℕ) : List ℕ := (List.range (4 * len)).map fun k => uint (d + k)

def sysSendMulti (p : Uproc) : Option (ℤ × List ℕ) :=
  match (p.argint 0).1, (p.argint 3).1, (p.argptr 2 MSGSIZE).1, (p.argint 1).1 with
  | some _, some len, some _, some b => some (len, recipients (uintOf b) len.toNat)
  | _, _, _, _ => none

def Safe (p : Uproc) : Prop :=
  ∀ len reads, p.sysSendMulti = some (len, reads) →
    0 ≤ len ∧ len * 4 ≤ p.sz ∧ (reads.length : ℤ) = len * 4 ∧ p.Inside reads

def NamesRecipients (p : Uproc) : Prop :=
  ∀ a len msg b, (p.argint 0).1 = some a → (p.argint 3).1 = some len →
    (p.argptr 2 MSGSIZE).1 = some msg → (p.argint 1).1 = some b →
    0 ≤ len ∧ (len = 0 ∨ (uintOf b : ℤ) + len * 4 ≤ p.sz)

theorem sysSendMulti_eq_some_iff {p : Uproc} {len : ℤ} {reads : List ℕ} :
    p.sysSendMulti = some (len, reads) ↔ ∃ a msg b, (p.argint 0).1 = some a ∧
      (p.argint 3).1 = some len ∧ (p.argptr 2 MSGSIZE).1 = some msg ∧ (p.argint 1).1 = some b ∧
      reads = recipients (uintOf b) len.toNat := by
  unfold sysSendMulti
  constructor
  · intro h
    split at h
    · rename_i a len' msg b ha hlen hmsg hb
      cases h
      exact ⟨a, msg, b, ha, hlen, hmsg, hb, rfl⟩
    · cases h
  · rintro ⟨a, msg, b, ha, hlen, hmsg, hb, rfl⟩
    rw [ha, hlen, hmsg, hb]

theorem inside_recipients_iff {p : Uproc} (hsz : p.sz < KERNBASE) {d n : ℕ} (hd : d < 4294967296)
    (hn : 4 * n ≤ p.sz) : p.Inside (recipients d n) ↔ n = 0 ∨ d + 4 * n ≤ p.sz := by
  unfold KERNBASE at hsz
  unfold Inside recipients
  simp only [List.mem_map, List.mem_range, forall_exists_index, and_imp, forall_apply_eq_imp_iff₂]
  constructor
  · intro h
    by_cases h0 : n = 0
    · exact .inl h0
    · -- The first address is below the size, so that the last one does not wrap around.
      have hfirst := h 0 (by omega)
      rw [Nat.add_zero, uint_of_lt hd] at hfirst
      have hlast := h (4 * n - 1) (by omega)
      rw [uint_of_lt (by omega)] at hlast
      omega
  · rintro (rfl | hle) k hk
    · omega
    · rw [uint_of_lt (by omega)]
      omega

/-- For every process whose size is below `KERNBASE`, whatever is on its stack: `send_multi` is safe
if and only if the recipients that its arguments name lie in the memory of the process. -/
theorem sendMulti_safe_iff {p : Uproc} (hsz : p.sz < KERNBASE) : p.Safe ↔ p.NamesRecipients := by
  constructor
  · intro h a len msg b ha hlen hmsg hb
    obtain ⟨h0, hle, -, hinside⟩ :=
      h len _ (sysSendMulti_eq_some_iff.2 ⟨a, msg, b, ha, hlen, hmsg, hb, rfl⟩)
    refine ⟨h0, ?_⟩
    rw [inside_recipients_iff hsz (uintOf_lt b) (by omega)] at hinside
    omega
  · rintro h len reads hcall
    obtain ⟨a, msg, b, ha, hlen, hmsg, hb, rfl⟩ := sysSendMulti_eq_some_iff.1 hcall
    obtain ⟨h0, hlast⟩ := h a len msg b ha hlen hmsg hb
    have hle : len * 4 ≤ p.sz := by omega
    refine ⟨h0, hle, ?_, ?_⟩
    · simp only [recipients, List.length_map, List.length_range]
      omega
    · rw [inside_recipients_iff hsz (uintOf_lt b) (by omega)]
      omega

def calling (b len : ℕ) : Uproc where
  sz := 8192
  esp := 4096
  mem := fun x =>
    let word := if x / 4 = 1025 then 1 else if x / 4 = 1026 then b else if x / 4 = 1028 then len
      else 0
    BitVec.ofNat 8 (word / 256 ^ (x % 4))

theorem calling_sysSendMulti {b len : ℕ} (hb : b < 4294967296) (hlen : len < 4294967296) :
    (calling b len).sysSendMulti = some (sint len, recipients b (sint len).toNat) := by
  -- The four bytes of a word.
  have hword : ∀ w < 4294967296,
      w % 256 + 256 * (w / 256 % 256) + 65536 * (w / 65536 % 256) +
        16777216 * (w / 16777216 % 256) = w := by
    intro w hw
    omega
  have hone : sint 1 = 1 := rfl
  have hzero : sint 0 = 0 := rfl
  have hcast : uintOf 0 = 0 ∧ uintOf 8 = 8 := ⟨rfl, rfl⟩
  refine sysSendMulti_eq_some_iff.2 ⟨1, 0, sint b, ?_⟩
  simp [argint, argptr, fetchint, calling, int, uint, hword b hb, hword len hlen, hone, hzero, hcast,
    uintOf_sint hb, MSGSIZE]

/-- Two recipients at address `0`. -/
theorem sendMulti_safe_iff_two :
    (calling 0 2).sysSendMulti = some (2, [0, 1, 2, 3, 4, 5, 6, 7]) ∧
      ((calling 0 2).Safe ↔ (calling 0 2).NamesRecipients) := by
  refine ⟨?_, sendMulti_safe_iff (by decide)⟩
  rw [calling_sysSendMulti (by decide) (by decide)]
  simp [recipients, uint, sint]
  decide

/-- A recipient at the first address of the kernel is read. And with a length of `-1` the local array
has a negative size. -/
theorem sendMulti_reads_kernel :
    (calling 2147483648 1).sysSendMulti =
        some (1, [2147483648, 2147483649, 2147483650, 2147483651]) ∧
      ¬ (calling 2147483648 1).Safe ∧
      (calling 0 4294967295).sysSendMulti = some (-1, []) ∧ ¬ (calling 0 4294967295).Safe := by
  have hread : (calling 2147483648 1).sysSendMulti =
      some (1, [2147483648, 2147483649, 2147483650, 2147483651]) := by
    rw [calling_sysSendMulti (by decide) (by decide)]
    simp [recipients, uint, sint]
    decide
  have hneg : (calling 0 4294967295).sysSendMulti = some (-1, []) := by
    rw [calling_sysSendMulti (by decide) (by decide)]
    simp [recipients, sint]
  refine ⟨hread, fun h => ?_, hneg, fun h => ?_⟩
  · obtain ⟨-, -, -, hinside⟩ := h _ _ hread
    exact absurd (hinside 2147483648 List.mem_cons_self) (by decide)
  · exact absurd (h _ _ hneg).1 (by decide)

end Xv6.Uproc
