import Xv6.Exec.Machine
import Xv6.Vm.Grow

/-!
# `growproc`

The helpers return 0 for a failure and also for a process of size 0, and sizes wrap around: so
`growproc` does what it should as long as the new size is positive, or the size does not shrink.
-/

namespace Xv6.Exec

open Vm

variable {L : Layout} {T : ℕ → Prop} {m : Mem} {d sz : ℕ} {S : Space} {n : ℤ}

def Mapped (m : Mem) (d sz : ℕ) : Prop :=
  ∀ v, UserPage v → (Present (m.pte d v) ↔ v * PGSIZE < PGROUNDUP sz)

/-- The size of a process is changed from what it is in `m` to `sz'` in `m'`. -/
structure Resized (m m' : Mem) (d sz' : ℕ) : Prop where
  mapped : Mapped m' d sz'
  kept : ∀ v, UserPage v → Present (m.pte d v) → Present (m'.pte d v) → m'.pte d v = m.pte d v ∧
    m'.page (pageOf (m'.pte d v)) = m.page (pageOf (m.pte d v))
  zeroed : ∀ v, UserPage v → ¬ Present (m.pte d v) → Present (m'.pte d v) →
    m'.page (pageOf (m'.pte d v)) = .zero

/-- The user part is the same. -/
structure Same (m m' : Mem) (d : ℕ) : Prop where
  present : ∀ v, UserPage v → (Present (m'.pte d v) ↔ Present (m.pte d v))
  kept : ∀ v, UserPage v → Present (m.pte d v) → m'.pte d v = m.pte d v ∧
    m'.page (pageOf (m'.pte d v)) = m.page (pageOf (m.pte d v))

theorem lt_roundup_iff {v : ℕ} (hsz : sz < KERNBASE) :
    v * PGSIZE < PGROUNDUP sz ↔ v < (sz + 4095) / PGSIZE := by
  unfold KERNBASE at hsz
  rw [PGROUNDUP_eq (by omega)]
  exact Nat.mul_lt_mul_right (by decide)

theorem Mapped.present_iff (hmapped : Mapped m d sz) (h : Inv T UserPage m d S none)
    (hsz : sz < KERNBASE) (v : ℕ) (hv : UserPage v) :
    Present (S.pte v) ↔ v < (sz + 4095) / PGSIZE := by
  rw [← h.rep.pte_eq hv.lt, hmapped v hv, lt_roundup_iff hsz]

section

variable (h : Inv T UserPage m d S none) {m' : Mem} {S' : Space}
  (h' : Inv T UserPage m' d S' none)
include h h'

theorem kept_of_space {v : ℕ} (hv : UserPage v) (hp : Present (S.pte v))
    (hpte : S'.pte v = S.pte v) (hdata : S'.data v = S.data v) : m'.pte d v = m.pte d v ∧
      m'.page (pageOf (m'.pte d v)) = m.page (pageOf (m.pte d v)) := by
  rw [h.rep.pte_eq hv.lt, h'.rep.pte_eq hv.lt, hpte]
  refine ⟨rfl, ?_⟩
  rw [h.rep.data hv hp, ← hdata, ← h'.rep.data hv (hpte ▸ hp), hpte]

theorem Same.of_kept (hkept : S.Kept S') : Same m m' d := by
  refine ⟨fun v hv => ?_, fun v hv hp => ?_⟩
  · rw [h.rep.pte_eq hv.lt, h'.rep.pte_eq hv.lt]
    exact hkept.present v
  · rw [h.rep.pte_eq hv.lt] at hp
    exact kept_of_space h h' hv hp (hkept.pte hp) (hkept.data hp)

theorem Resized.of_grown {newsz : ℕ} (hsz : sz < KERNBASE) (hmapped : Mapped m d sz)
    (hnew : newsz < KERNBASE) (hle : sz ≤ newsz)
    (hgrown : S.Grown S' ((sz + 4095) / PGSIZE) ((newsz + 4095) / PGSIZE)) :
    Resized m m' d newsz := by
  have hmono : (sz + 4095) / PGSIZE ≤ (newsz + 4095) / PGSIZE := Nat.div_le_div_right (by omega)
  have hold := hmapped.present_iff h hsz
  refine ⟨fun v hv => ?_, fun v hv hp hp' => ?_, fun v hv hp hp' => ?_⟩
  · rw [h'.rep.pte_eq hv.lt, lt_roundup_iff hnew]
    by_cases hin : (sz + 4095) / PGSIZE ≤ v ∧ v < (newsz + 4095) / PGSIZE
    · exact iff_of_true (hgrown.new hin.1 hin.2).1 hin.2
    · rw [hgrown.pte (by omega), hold v hv]
      omega
  · rw [h.rep.pte_eq hv.lt] at hp
    have hlt := (hold v hv).1 hp
    exact kept_of_space h h' hv hp (hgrown.pte (.inl hlt)) (hgrown.data (.inl hlt))
  · rw [h.rep.pte_eq hv.lt, hold v hv] at hp
    rw [h'.rep.pte_eq hv.lt] at hp' ⊢
    have hlt : v < (newsz + 4095) / PGSIZE := by
      by_contra hge
      rw [hgrown.pte (by omega), hold v hv] at hp'
      exact hp hp'
    rw [h'.rep.data hv hp']
    exact (hgrown.new (by omega) hlt).2.2

theorem Resized.of_clear {newsz : ℕ} (hsz : sz < KERNBASE) (hmapped : Mapped m d sz)
    (hle : newsz ≤ sz) (hS' : S' = S.clear ((newsz + 4095) / PGSIZE) ((sz + 4095) / PGSIZE)) :
    Resized m m' d newsz := by
  have hmono : (newsz + 4095) / PGSIZE ≤ (sz + 4095) / PGSIZE := Nat.div_le_div_right (by omega)
  have hold := hmapped.present_iff h hsz
  have hlow : ∀ v, v < (newsz + 4095) / PGSIZE ∨ (sz + 4095) / PGSIZE ≤ v →
      S'.pte v = S.pte v := by
    intro v hv
    rw [hS']
    exact if_neg (by omega)
  have hgone : ∀ v, (newsz + 4095) / PGSIZE ≤ v → v < (sz + 4095) / PGSIZE →
      ¬ Present (S'.pte v) := by
    intro v hge hlt
    rw [hS']
    exact S.not_present_clear hge hlt
  refine ⟨fun v hv => ?_, fun v hv hp hp' => ?_, fun v hv hp hp' => ?_⟩
  · rw [h'.rep.pte_eq hv.lt, lt_roundup_iff (hle.trans_lt hsz)]
    by_cases hin : (newsz + 4095) / PGSIZE ≤ v ∧ v < (sz + 4095) / PGSIZE
    · exact iff_of_false (hgone v hin.1 hin.2) (by omega)
    · rw [hlow v (by omega), hold v hv]
      omega
  · rw [h.rep.pte_eq hv.lt] at hp
    rw [h'.rep.pte_eq hv.lt] at hp'
    have hlt := (hold v hv).1 hp
    have hlt' : v < (newsz + 4095) / PGSIZE := by
      by_contra hge
      exact hgone v (by omega) hlt hp'
    exact kept_of_space h h' hv hp (hlow v (.inl hlt')) (congrFun (congrArg Space.data hS') v)
  · -- nothing is mapped
    rw [h.rep.pte_eq hv.lt, hold v hv] at hp
    rw [h'.rep.pte_eq hv.lt, hlow v (by omega), hold v hv] at hp'
    exact absurd hp' hp

end

def Resizes (L : Layout) (m : Mem) (d sz : ℕ) (n : ℤ) : Prop :=
  ∃ r m', (growproc d sz n).exec (Vm.Op.perform L) m = some (.inl r, m') ∧
    (r = none → Same m m' d) ∧ ∀ sz', r = some sz' → (sz' : ℤ) = sz + n ∧ Resized m m' d sz'

theorem growproc_of_le (hneg : n < 0) (hle : sz ≤ uintOf (sz + n)) :
    growproc d sz n = .ret (if sz = 0 then none else some sz) := by
  unfold growproc Vm.deallocuvm
  rw [if_neg (by omega), if_pos hneg, if_pos hle]
  rfl

section

variable (hL : ∀ {pn}, T pn → L.Usable pn) (h : Inv T UserPage m d S none) (hsz : sz < KERNBASE)
  (hmapped : Mapped m d sz) (hint : -2147483648 ≤ n ∧ n < 2147483648)
include hL h hsz hmapped hint

theorem growproc_ends (hn : 0 ≤ n ∨ 0 < sz + n) :
    Ends L (fun _ _ => False) (growproc d sz n) (fun r m' => (r = none → Same m m' d) ∧
      ∀ sz', r = some sz' → (sz' : ℤ) = sz + n ∧ Resized m m' d sz') m := by
  have hbase := hsz
  unfold KERNBASE at hbase
  unfold growproc
  by_cases hpos : 0 < n
  · rw [if_pos hpos]
    -- the sum is below 2^32
    have hsum : ((uintOf (sz + n) : ℕ) : ℤ) = sz + n := uintOf_of_nonneg (by omega) (by omega)
    generalize uintOf (sz + n) = newsz at hsum
    refine Task.wp_bind.2 (allocuvm_ends hsz.le hL h (hmapped.present_iff h hsz) (fun _ => ?_)
      (fun hlt => by omega) (fun m' S' h' hk hkept _ => ?_) fun m' S' hnew hle h' hk hgrown => ?_)
    · exact ⟨fun _ => .of_kept h h ⟨fun _ => Iff.rfl, fun _ => rfl, fun _ => rfl⟩, nofun⟩
    · exact ⟨fun _ => .of_kept h h' hkept, nofun⟩
    · refine ⟨fun hx => ?_, fun sz' hx => ?_⟩
      · rw [if_neg (by omega)] at hx
        cases hx
      · rw [if_neg (by omega)] at hx
        cases hx
        exact ⟨hsum, .of_grown h h' hsz hmapped hnew hle hgrown⟩
  · rw [if_neg hpos]
    by_cases hneg : n < 0
    · rw [if_pos hneg]
      have hsum : ((uintOf (sz + n) : ℕ) : ℤ) = sz + n := uintOf_of_nonneg (by omega) (by omega)
      generalize uintOf (sz + n) = newsz at hsum
      refine Task.wp_bind.2 (deallocuvm_ends hsz.le (by omega) (fun _ => id) hL h
        fun m' h' hk => ⟨fun hx => ?_, fun sz' hx => ?_⟩)
      · rw [if_neg (by omega)] at hx
        cases hx
      · rw [if_neg (by omega)] at hx
        cases hx
        exact ⟨hsum, .of_clear h h' hsz hmapped (by omega) rfl⟩
    · rw [if_neg hneg]
      refine ⟨nofun, fun sz' hx => ?_⟩
      cases hx
      exact ⟨by omega, .of_grown h h hsz hmapped hsz le_rfl (.refl S _)⟩

theorem not_resizes_of_zero (hpos : 0 < sz) (hn : sz + n = 0) : ¬ Resizes L m d sz n := by
  have hends : Ends L (fun _ _ => False) (growproc d sz n)
      (fun r m' => r = none ∧ ¬ Present (m'.pte d 0)) m := by
    unfold growproc
    rw [if_neg (by omega), if_pos (by omega), hn]
    refine Task.wp_bind.2 (deallocuvm_ends hsz.le hpos (fun _ => id) hL h
      fun m' h' hk => ⟨rfl, ?_⟩)
    rw [h'.rep.pte_eq (by decide)]
    exact S.not_present_clear (by decide) (by unfold PGSIZE; omega)
  rintro ⟨r, m', hexec, hnone, -⟩
  obtain ⟨r', m'', hexec', rfl, hgone⟩ | ⟨why, m'', -, hfalse⟩ := Task.Wp.exec (fun _ => rfl) hends
  · cases hexec.symm.trans hexec'
    have huser : UserPage 0 := show 0 < 524288 by decide
    refine hgone (((hnone rfl).present 0 huser).2 ((hmapped 0 huser).2 ?_))
    rw [lt_roundup_iff hsz]
    unfold PGSIZE
    omega
  · exact hfalse

/-- `growproc` does what it should if and only if it does not shrink to size 0 or below, or the
process has size 0. -/
theorem growproc_resizes_iff : Resizes L m d sz n ↔ 0 ≤ n ∨ 0 < sz + n ∨ sz = 0 := by
  have hbase := hsz
  unfold KERNBASE at hbase
  -- a sum below 0 wraps around to one above all sizes
  have hwrap : n < 0 → sz + n < 0 → sz ≤ uintOf (sz + n) := by
    intro hneg hlt
    unfold uintOf
    omega
  constructor
  · intro hresizes
    by_contra! hn
    obtain ⟨hneg, hle, hne⟩ := hn
    rcases hle.lt_or_eq with hlt | heq
    · obtain ⟨r, m', hexec, -, hsome⟩ := hresizes
      rw [growproc_of_le hneg (hwrap hneg hlt), if_neg hne] at hexec
      cases hexec
      have hsum := (hsome sz rfl).1
      omega
    · exact not_resizes_of_zero hL h hsz hmapped hint (by omega) heq hresizes
  · intro hn
    by_cases hends : 0 ≤ n ∨ 0 < sz + n
    · obtain ⟨r, m', hexec, hr⟩ | ⟨why, m', -, hfalse⟩ :=
        Task.Wp.exec (fun _ => rfl) (growproc_ends hL h hsz hmapped hint hends)
      · exact ⟨r, m', hexec, hr⟩
      · exact hfalse.elim
    · refine ⟨none, m, ?_, fun _ => ?_, nofun⟩
      · rw [growproc_of_le (by omega) (hwrap (by omega) (by omega)), if_pos (by omega)]
        rfl
      · exact .of_kept h h ⟨fun _ => Iff.rfl, fun _ => rfl, fun _ => rfl⟩

end

theorem onePage_mapped {sz : ℕ} (hpos : 0 < sz) (hle : sz ≤ PGSIZE) : Mapped onePage 300 sz := by
  intro v hv
  unfold PGSIZE at hle
  rw [onePage_pte, PGROUNDUP_eq (by omega)]
  unfold PGSIZE
  split
  · next hv => exact iff_of_true rfl (by omega)
  · next hv => exact iff_of_false nofun (by omega)

/-- A process of one page gives back all but one byte. -/
theorem growproc_resizes_iff_onePage : Resizes someLayout onePage 300 4096 (-4095) :=
  (growproc_resizes_iff onePage_usable onePage_inv (by decide)
    (onePage_mapped (by decide) le_rfl) (by decide)).2 (.inr (.inl (by decide)))

/-- Shrinking to nothing: -1 is returned, and the page is gone. -/
theorem growproc_loses_pages : Mapped onePage 300 4096 ∧ ∃ m',
    (growproc 300 4096 (-4096)).exec (Vm.Op.perform someLayout) onePage = some (.inl none, m') ∧
      Present (onePage.pte 300 0) ∧ ¬ Present (m'.pte 300 0) := by
  refine ⟨onePage_mapped (by decide) le_rfl, ?_⟩
  have hrun : ((growproc 300 4096 (-4096)).exec (Vm.Op.perform someLayout) onePage).map
      (fun x => decide (x.1 = .inl none ∧ ¬ Present (x.2.pte 300 0))) = some true := by
    decide +kernel
  obtain ⟨⟨r, m'⟩, hexec, hx⟩ := Option.map_eq_some_iff.1 hrun
  obtain ⟨rfl, hgone⟩ := of_decide_eq_true hx
  refine ⟨m', hexec, ?_, hgone⟩
  rw [onePage_pte]
  decide

end Xv6.Exec
