import Xv6.Vm.Kernel

/-!
# `copyuvm`

The parent is any page directory in memory, of which only entries are read (`Mem.pte`); its page
tables and pages are not on the free list. The child is built from the free list, and is freed again
if that runs out.
-/

namespace Xv6.Vm

variable {L : Layout} {T U : ℕ → Prop} {m m₀ : Mem} {pgdir d v : ℕ} {S : Space}
  {D : String → Mem → Prop}

/-! ## The loop -/

/-- The user pages below page `i` have been copied. -/
structure Copying (L : Layout) (m₀ : Mem) (pgdir : ℕ) (S : Space) (i : ℕ) : Prop where
  copied : ∀ {v}, v < i → UserPage v → Present (S.pte v) ∧
    PTE_FLAGS (S.pte v) = PTE_FLAGS (m₀.pte pgdir v) ∧ S.data v = m₀.page (pageOf (m₀.pte pgdir v))
  rest : ∀ {v}, i ≤ v → UserPage v → S.pte v = 0
  kernel : ∀ {v}, ¬ UserPage v → S.pte v = kernelPte L v

theorem Copying.next {i w : ℕ} {b : Bytes} {S' : Space} (h : Copying L m₀ pgdir S i)
    (hi : UserPage i) (hp : Present w) (hflags : PTE_FLAGS w = PTE_FLAGS (m₀.pte pgdir i))
    (hb : b = m₀.page (pageOf (m₀.pte pgdir i))) (hext : (S.put i w b).Extends S') :
    Copying L m₀ pgdir S' (i + 1) := by
  refine ⟨fun {v} hv hU => ?_, fun {v} hv hU => ?_, fun {v} hU => ?_⟩
  · rw [hext.pte, hext.data]
    by_cases hvi : v = i
    · subst hvi
      rw [Space.put_pte_self, Space.put_data_self]
      exact ⟨hp, hflags, hb⟩
    · rw [Space.put_pte_of_ne _ _ _ hvi, Space.put_data_of_ne _ _ _ hvi]
      exact h.copied (by omega) hU
  · rw [hext.pte, Space.put_pte_of_ne _ _ _ (by omega)]
    exact h.rest (by omega) hU
  · have hvi : v ≠ i := by
      rintro rfl
      exact hU hi
    rw [hext.pte, Space.put_pte_of_ne _ _ _ hvi]
    exact h.kernel hU

theorem Mem.rep_of_keeps (hparent : ∀ pn, m₀.Reaches pgdir pn → ¬ T pn) (hkeeps : Keeps T m₀ m) :
    Rep UserPage m pgdir (m₀.space pgdir) := by
  refine (m₀.rep_space pgdir).congr ?_ (fun k t hk ht => ?_) fun v hv hp => ?_
  · exact hkeeps pgdir (hparent pgdir (.inl rfl))
  · exact hkeeps t (hparent t (.inr (.inl ⟨k, hk, ht⟩)))
  · exact hkeeps _ (hparent _ (.inr (.inr ⟨v, hv, hp, rfl⟩)))

theorem flags_or_present {w : ℕ} (hp : Present w) : PTE_FLAGS w ||| 1 = PTE_FLAGS w := by
  have hodd : PTE_FLAGS w = 2 * (PTE_FLAGS w / 2) + 1 := by
    unfold Present at hp
    unfold PTE_FLAGS PGSIZE
    omega
  have hor := Nat.two_pow_add_eq_or_of_lt (i := 1) (b := 1) (by decide) (PTE_FLAGS w / 2)
  rw [Nat.pow_one] at hor
  rw [hodd, hor, Nat.or_assoc, Nat.or_self]

theorem copyuvmFrom_ends {Q : Option ℕ → Mem → Prop} {sz n i fuel : ℕ}
    (hsz : ∀ u, u * PGSIZE < sz ↔ u < n) (hn : n ≤ 524288)
    (hL : ∀ {pn}, T pn → L.Usable pn) (hparent : ∀ pn, m₀.Reaches pgdir pn → ¬ T pn)
    (hmapped : ∀ v, v < n → Present (m₀.pte pgdir v)) (hi : i ≤ n) (hfuel : n - i < fuel)
    (hkeeps : Keeps T m₀ m) (h : Inv T UserPage m d S none) (hcopy : Copying L m₀ pgdir S i)
    (hnone : ∀ m', AllFree T m' → Keeps T m₀ m' → AtMost T (1026 + n) → Q none m')
    (hsome : ∀ m' S', Inv T UserPage m' d S' none → Keeps T m₀ m' →
      Copying L m₀ pgdir S' n → Q (some d) m') :
    Ends L D (copyuvmFrom pgdir d sz fuel (i * PGSIZE)) Q m := by
  induction fuel generalizing m S i with
  | zero => exact absurd hfuel (Nat.not_lt_zero _)
  | succ fuel ih =>
    unfold copyuvmFrom
    by_cases hlt : i < n
    · have hU : UserPage i := lt_of_lt_of_le hlt hn
      have hp := hmapped i hlt
      have hrep : Rep UserPage m pgdir (m₀.space pgdir) := Mem.rep_of_keeps hparent hkeeps
      rw [if_pos ((hsz i).2 hlt)]
      refine Task.wp_bind.2 (walkpgdir_ends hrep (by omega) (fun hnot => ?_) fun t ht => ?_)
      · -- the page is present, so there is a page table for it
        have hzero := hrep.zero (k := i / 1024) (by omega) hnot (Nat.mod_lt i (by decide))
        rw [index_of] at hzero
        rw [show m₀.pte pgdir i = 0 from hzero] at hp
        cases hp
      · dsimp only
        refine Task.wp_bind.2 (load_ends ?_)
        rw [hrep.pte (by omega) ht (Nat.mod_lt _ (by decide)), index_of, Mem.space_pte]
        refine Task.wp_bind.2 (panicUnless_ends (fun hx => absurd hp hx) fun _ => ?_)
        have hfree : ∀ m', Inv T UserPage m' d S none → Keeps T m₀ m' → AtMost T (1026 + n) →
            Ends L D (do freevm d; return none) Q m' := by
          intro m' h' hkeeps' hshort
          refine Task.wp_bind.2 (freevm_ends (fun _ => Iff.rfl) hL h' fun m'' hall hk => ?_)
          exact hnone m'' hall (hkeeps'.trans hk) hshort
        have hpages : ∀ v, UserPage v → Present (S.pte v) → v < n := by
          intro v hv hpv
          by_contra hge
          rw [hcopy.rest (by omega) hv] at hpv
          cases hpv
        refine Task.wp_bind.2 (kalloc_ends (fun hempty => ?_) fun pn free hpn => ?_)
        · exact hfree m h hkeeps (h.atMost hempty hpages)
        dsimp only
        refine Task.wp_bind.2 (memmove_ends ?_)
        have hT : T pn := by
          refine h.ledger.sound (a := .free) ?_
          show pn ∈ m.free
          rw [hpn]
          exact List.mem_cons_self
        have hbytes : m.page (pageOf (m₀.pte pgdir i)) = m₀.page (pageOf (m₀.pte pgdir i)) :=
          hkeeps _ (hparent _ (.inr (.inr ⟨i, hU, hp, rfl⟩)))
        have hhand := (h.take hpn).fill (m₀.page (pageOf (m₀.pte pgdir i)))
        have hkeeps₁ : Keeps T m₀ (Mem.setPage { m with free := free } pn
            (m₀.page (pageOf (m₀.pte pgdir i)))) :=
          hkeeps.trans (keeps_setPage (m := { m with free := free }) hT)
        rw [show (Mem.page { m with free := free } (pageOf (m₀.pte pgdir i))) = _ from hbytes]
        have hflags : PTE_FLAGS (m₀.pte pgdir i) < 4096 := Nat.mod_lt _ (by decide)
        obtain ⟨hpw, -, hfw, -⟩ := entry_spec hflags (hL hT).lt
        refine Task.wp_bind.2 (mappages_hand_ends hflags (fun hT => (hL hT).lt) hhand (by omega) hU ?_
          (fun hempty => ?_) fun m' S' h' hkeeps' hext => ?_)
        · rw [hcopy.rest le_rfl hU]
          nofun
        · rw [if_neg (by decide)]
          refine Task.wp_bind.2 (kfree_ends (hL hT) ?_)
          exact hfree _ hhand.putBack (hkeeps₁.trans (keeps_setPage hT)) (hhand.atMost hempty hpages)
        · rw [if_pos rfl, uint_next (by omega)]
          refine ih (by omega) (by omega) (hkeeps₁.trans hkeeps') h' ?_
          refine hcopy.next hU hpw ?_ rfl hext
          rw [hfw, flags_or_present hp]
    · rw [if_neg (fun hx => hlt ((hsz i).1 hx))]
      obtain rfl : i = n := by omega
      exact hsome m S h hkeeps hcopy

/-! ## `copyuvm` -/

/-- The free list: pages that `kfree` takes, none of them twice. -/
structure FreeList (L : Layout) (m : Mem) : Prop where
  nodup : m.free.Nodup
  usable : ∀ {pn}, pn ∈ m.free → L.Usable pn

theorem FreeList.allFree (h : FreeList L m) : AllFree (· ∈ m.free) m := ⟨fun _ => Iff.rfl, h.nodup⟩

theorem setupkvm_kernel {m' : Mem} (h : FreeList L m)
    (hexec : (setupkvm L).exec (Op.perform L) m = some (.inl (some d), m')) (hv : v < 1048576) :
    m'.pte d v = kernelPte L v := by
  have hends : Ends L (fun _ _ => False) (setupkvm L)
      (fun r m' => ∀ d, r = some d → m'.pte d v = kernelPte L v) m := by
    refine setupkvm_ends (U := UserPage) h.allFree h.usable (fun _ => Iff.rfl) (fun m' _ _ _ => nofun)
      fun d m' S h' _ _ hpte d' hd => ?_
    cases hd
    rw [h'.rep.pte_eq hv, hpte]
  obtain ⟨r, m'', hexec', hr⟩ | ⟨why, m'', -, hfalse⟩ := Task.Wp.exec (fun _ => rfl) hends
  · rw [hexec] at hexec'
    cases hexec'
    exact hr d rfl
  · exact hfalse.elim

/-- The page directory `d` in `m'` is a copy of `pgdir` in `m`. -/
structure Copied (L : Layout) (m m' : Mem) (pgdir d : ℕ) : Prop where
  present : ∀ v, UserPage v → (Present (m'.pte d v) ↔ Present (m.pte pgdir v))
  flags : ∀ v, UserPage v → Present (m.pte pgdir v) →
    PTE_FLAGS (m'.pte d v) = PTE_FLAGS (m.pte pgdir v)
  bytes : ∀ v, UserPage v → Present (m.pte pgdir v) →
    m'.page (pageOf (m'.pte d v)) = m.page (pageOf (m.pte pgdir v))
  disjoint : ∀ pn, m'.Reaches d pn → ¬ m.Reaches pgdir pn
  fresh : ∀ pn, m'.Reaches d pn → pn ∈ m.free ∧ pn ∉ m'.free
  kernel : ∀ m₀ d₀ m₁, FreeList L m₀ →
    (setupkvm L).exec (Op.perform L) m₀ = some (.inl (some d₀), m₁) →
    ∀ v, ¬ UserPage v → v < 1048576 → m'.pte d v = m₁.pte d₀ v

theorem Copying.copied_of {n : ℕ} {m' : Mem} (hcopy : Copying L m pgdir S n)
    (h : Inv (· ∈ m.free) UserPage m' d S none)
    (hparent : ∀ pn, m.Reaches pgdir pn → pn ∉ m.free)
    (hmapped : ∀ v, UserPage v → (Present (m.pte pgdir v) ↔ v < n)) : Copied L m m' pgdir d := by
  have hpte : ∀ v, UserPage v → m'.pte d v = S.pte v := fun v hv =>
    h.rep.pte_eq hv.lt
  refine ⟨fun v hv => ?_, fun v hv hp => ?_, fun v hv hp => ?_, fun pn hr hr' => ?_,
    fun pn hr => h.of_reaches hr, fun m₀ d₀ m₁ hfree hexec v hv hlt => ?_⟩
  · rw [hpte v hv, hmapped v hv]
    constructor
    · intro hp
      by_contra hge
      rw [hcopy.rest (Nat.le_of_not_lt hge) hv] at hp
      cases hp
    · intro hlt
      exact (hcopy.copied hlt hv).1
  · rw [hpte v hv]
    exact (hcopy.copied ((hmapped v hv).1 hp) hv).2.1
  · obtain ⟨hp', -, hdata⟩ := hcopy.copied ((hmapped v hv).1 hp) hv
    rw [hpte v hv, h.rep.data hv hp']
    exact hdata
  · exact hparent pn hr' (h.of_reaches hr).1
  · rw [h.rep.pte_eq hlt, hcopy.kernel hv, setupkvm_kernel hfree hexec hlt]

/-- `copyuvm` returns, and either has copied all of the address space or has kept nothing; the pages
that were not free are as they were. It only fails if the free list may be too short for the page
directory, the page tables and the pages. -/
theorem copyuvm_copies {sz : ℕ} (hfree : FreeList L m)
    (hparent : ∀ pn, m.Reaches pgdir pn → pn ∉ m.free) (hsz : sz < KERNBASE)
    (hmapped : ∀ v, UserPage v → (Present (m.pte pgdir v) ↔ v * PGSIZE < PGROUNDUP sz)) :
    ∃ r m', (copyuvm L pgdir sz).exec (Op.perform L) m = some (.inl r, m') ∧
      (∀ pn, pn ∉ m.free → m'.page pn = m.page pn) ∧ m'.free.Nodup ∧
      (r = none → (∀ pn, pn ∈ m'.free ↔ pn ∈ m.free) ∧
        m.free.length ≤ 1026 + (sz + 4095) / PGSIZE) ∧
      ∀ d, r = some d → Copied L m m' pgdir d := by
  unfold KERNBASE at hsz
  have hround : PGROUNDUP sz = (sz + 4095) / PGSIZE * PGSIZE := PGROUNDUP_eq (by omega)
  have hpages : (sz + 4095) / PGSIZE ≤ 524288 := by
    unfold PGSIZE
    omega
  have hmapped' : ∀ v, UserPage v → (Present (m.pte pgdir v) ↔ v < (sz + 4095) / PGSIZE) := by
    intro v hv
    rw [hmapped v hv, hround]
    exact Nat.mul_lt_mul_right (by decide)
  have hends : Ends L (fun _ _ => False) (copyuvm L pgdir sz) (fun r m' =>
      (∀ pn, pn ∉ m.free → m'.page pn = m.page pn) ∧ m'.free.Nodup ∧
      (r = none → (∀ pn, pn ∈ m'.free ↔ pn ∈ m.free) ∧
        m.free.length ≤ 1026 + (sz + 4095) / PGSIZE) ∧
      ∀ d, r = some d → Copied L m m' pgdir d) m := by
    unfold copyuvm
    have hfail : ∀ m', AllFree (· ∈ m.free) m' → Keeps (· ∈ m.free) m m' →
        m.free.length ≤ 1026 + (sz + 4095) / PGSIZE →
        (∀ pn, pn ∉ m.free → m'.page pn = m.page pn) ∧ m'.free.Nodup ∧
        ((none : Option ℕ) = none → (∀ pn, pn ∈ m'.free ↔ pn ∈ m.free) ∧
          m.free.length ≤ 1026 + (sz + 4095) / PGSIZE) ∧
        ∀ d, none = some d → Copied L m m' pgdir d :=
      fun m' hall hkeeps hshort => ⟨hkeeps, hall.nodup, fun _ => ⟨hall.mem, hshort⟩, nofun⟩
    have hlength : ∀ {n}, AtMost (· ∈ m.free) n → m.free.length ≤ n := fun h =>
      h m.free hfree.nodup fun _ => id
    refine Task.wp_bind.2 (setupkvm_ends (U := UserPage) hfree.allFree hfree.usable
      (fun _ => Iff.rfl) (fun m' hall hkeeps hshort => ?_) fun d m₁ S h hkeeps _ hpte => ?_)
    · exact hfail m' hall hkeeps ((hlength hshort).trans (Nat.le_add_right _ _))
    have hstart : Copying L m pgdir S 0 := by
      refine ⟨nofun, fun {v} _ hv => ?_, fun {v} _ => hpte v⟩
      rw [hpte]
      exact kernelPte_user L hv
    refine copyuvmFrom_ends (i := 0) (fun u => lt_size_iff u sz) hpages hfree.usable hparent
      (fun v hv => (hmapped' v (lt_of_lt_of_le hv hpages)).2 hv) (Nat.zero_le _) (by omega) hkeeps h
      hstart (fun m' hall hk hshort => hfail m' hall hk (hlength hshort))
      fun m' S' h' hkeeps' hcopy => ⟨hkeeps', h'.nodup, nofun, fun d' hd => ?_⟩
    cases hd
    exact hcopy.copied_of h' hparent hmapped'
  obtain ⟨r, m', hexec, hr⟩ | ⟨why, m', -, hfalse⟩ := Task.Wp.exec (fun _ => rfl) hends
  · exact ⟨r, m', hexec, hr⟩
  · exact hfalse.elim

def onePageAndFree : Mem := { onePage with free := List.range' 1000 1100 }

theorem copyuvm_copies_onePage : ∃ d m',
    (copyuvm someLayout 300 1).exec (Op.perform someLayout) onePageAndFree =
        some (.inl (some d), m') ∧
      (∀ pn, pn ∉ onePageAndFree.free → m'.page pn = onePageAndFree.page pn) ∧ m'.free.Nodup ∧
      Copied someLayout onePageAndFree m' 300 d := by
  have hfree : ∀ {pn}, pn ∈ onePageAndFree.free ↔ 1000 ≤ pn ∧ pn < 1000 + 1100 := List.mem_range'_1
  have hlen : onePageAndFree.free.length = 1100 := List.length_range'
  have hlist : FreeList someLayout onePageAndFree := by
    refine ⟨List.nodup_range', fun {pn} hpn => ?_⟩
    rw [hfree] at hpn
    show 1130496 ≤ pn * 4096 ∧ pn * 4096 < 234881024
    omega
  have hparent : ∀ pn, onePageAndFree.Reaches 300 pn → pn ∉ onePageAndFree.free := by
    intro pn hr
    have hpn : pn = 300 ∨ pn = 301 ∨ pn = 302 := by
      rcases hr with rfl | ⟨k, -, ht⟩ | ⟨v, -, hp, hpn⟩
      · exact .inl rfl
      · exact .inr (.inl (onePage_table ht).2)
      · have hpte : onePageAndFree.pte 300 v = _ := onePage_pte v
        rw [hpte] at hp hpn
        split at hp
        · next hv =>
          rw [if_pos hv] at hpn
          exact .inr (.inr hpn.symm)
        · cases hp
    rw [hfree]
    omega
  have hmapped : ∀ v, UserPage v →
      (Present (onePageAndFree.pte 300 v) ↔ v * PGSIZE < PGROUNDUP 1) := by
    intro v _
    rw [show onePageAndFree.pte 300 v = _ from onePage_pte v, PGROUNDUP_eq (by decide)]
    split
    · next hv =>
      rw [hv]
      decide
    · next hv =>
      refine iff_of_false nofun ?_
      unfold PGSIZE
      omega
  obtain ⟨r, m', hexec, hpages, hnodup, hnone, hsome⟩ :=
    copyuvm_copies hlist hparent (by decide) hmapped
  cases r with
  | none =>
    have hshort := (hnone rfl).2
    rw [hlen] at hshort
    exact absurd hshort (by decide)
  | some d => exact ⟨d, m', hexec, hpages, hnodup, hsome d rfl⟩

end Xv6.Vm
