import Xv6.Vm.Free

/-!
# `allocuvm`

It adds zeroed pages from the old size to the new one, or frees the ones that it has added when the
free list runs out. `Space.Grown` says what it does to an address space, and `Space.Kept` what is
still the case when it has failed.
-/

namespace Xv6.Vm

variable {L : Layout} {T U : ℕ → Prop} {m : Mem} {d v lo hi : ℕ} {S S' : Space}
  {D : String → Mem → Prop}

/-- The pages from `lo` to `hi` are new, and zero; they are `PTE_P | PTE_W | PTE_U`. -/
structure Space.Grown (S S' : Space) (lo hi : ℕ) : Prop where
  new : ∀ {v}, lo ≤ v → v < hi →
    Present (S'.pte v) ∧ PTE_FLAGS (S'.pte v) = 7 ∧ S'.data v = .zero
  pte : ∀ {v}, v < lo ∨ hi ≤ v → S'.pte v = S.pte v
  data : ∀ {v}, v < lo ∨ hi ≤ v → S'.data v = S.data v
  tab : ∀ {k t}, S'.tab k = some t → S.tab k = some t ∨ ∃ v, v / 1024 = k ∧ Present (S'.pte v)

/-- The same pages are present, with the same entries and bytes. -/
structure Space.Kept (S S' : Space) : Prop where
  present : ∀ v, Present (S'.pte v) ↔ Present (S.pte v)
  pte : ∀ {v}, Present (S.pte v) → S'.pte v = S.pte v
  data : ∀ {v}, Present (S.pte v) → S'.data v = S.data v

theorem Space.Grown.refl (S : Space) (lo : ℕ) : S.Grown S lo lo :=
  ⟨fun h h' => absurd h (by omega), fun _ => rfl, fun _ => rfl, .inl⟩

theorem Space.Grown.next {w : ℕ} {S'' : Space} (h : S.Grown S' lo v) (hlo : lo ≤ v) (hp : Present w)
    (hflags : PTE_FLAGS w = 7) (hext : (S'.put v w .zero).Extends S'') :
    S.Grown S'' lo (v + 1) := by
  refine ⟨fun {u} hu hu' => ?_, fun {u} hu => ?_, fun {u} hu => ?_, fun {k t} ht => ?_⟩
  · rw [hext.pte, hext.data]
    by_cases huv : u = v
    · subst huv
      rw [put_pte_self, put_data_self]
      exact ⟨hp, hflags, rfl⟩
    · rw [put_pte_of_ne _ _ _ huv, put_data_of_ne _ _ _ huv]
      exact h.new hu (by omega)
  · rw [hext.pte, put_pte_of_ne _ _ _ (by omega)]
    exact h.pte (by omega)
  · rw [hext.data, put_data_of_ne _ _ _ (by omega)]
    exact h.data (by omega)
  · rcases hext.new ht with hold | hin
    · refine (h.tab hold).imp_right fun ⟨u, hu, hpu⟩ => ⟨u, hu, ?_⟩
      rw [hext.pte]
      by_cases huv : u = v
      · subst huv
        rwa [put_pte_self]
      · rwa [put_pte_of_ne _ _ _ huv]
    · exact .inr hin

theorem Space.Grown.clear (h : S.Grown S' lo v) (hv : v ≤ hi)
    (hfresh : ∀ u, lo ≤ u → u < hi → ¬ Present (S.pte u)) : S.Kept (S'.clear lo hi) := by
  have hsame : ∀ {u}, Present (S.pte u) → u < lo ∨ hi ≤ u := by
    intro u hp
    by_contra hin
    exact hfresh u (by omega) (by omega) hp
  have hpte : ∀ {u}, u < lo ∨ hi ≤ u → (S'.clear lo hi).pte u = S.pte u := by
    intro u hu
    rw [← h.pte (by omega)]
    exact if_neg (by omega)
  refine ⟨fun u => ⟨fun hp => ?_, fun hp => ?_⟩, fun hp => hpte (hsame hp), fun hp => ?_⟩
  · by_cases hu : u < lo ∨ hi ≤ u
    · rw [hpte hu] at hp
      exact hp
    · exact absurd hp (S'.not_present_clear (by omega) (by omega))
  · rw [hpte (hsame hp)]
    exact hp
  · have := hsame hp
    exact h.data (by omega)

theorem allocuvmFrom_ends {Q : Bool → Mem → Prop} {oldsz newsz fuel : ℕ}
    (hL : ∀ {pn}, T pn → L.Usable pn) (hnew : newsz < KERNBASE) (hlo : (oldsz + 4095) / PGSIZE = lo) (hhi : (newsz + 4095) / PGSIZE = hi)
    (hS : ∀ u, UserPage u → (Present (S.pte u) ↔ u < lo)) {m₀ : Mem} (hlv : lo ≤ v) (hvh : v ≤ hi)
    (hfuel : hi - v < fuel) (hkeeps : Keeps T m₀ m) (h : Inv T UserPage m d S' none)
    (hgrown : S.Grown S' lo v)
    (hfalse : ∀ m' S'', Inv T UserPage m' d S'' none → Keeps T m₀ m' → S.Kept S'' →
      AtMost T (1026 + hi) → Q false m')
    (htrue : ∀ m' S'', Inv T UserPage m' d S'' none → Keeps T m₀ m' → S.Grown S'' lo hi →
      Q true m') :
    Ends L D (allocuvmFrom d oldsz newsz fuel (v * PGSIZE)) Q m := by
  unfold KERNBASE at hnew
  have hsz : ∀ u, u * PGSIZE < newsz ↔ u < hi := fun u => hhi ▸ lt_size_iff u newsz
  have hbound : hi ≤ 524288 := by
    rw [← hhi]
    unfold PGSIZE
    omega
  have hfresh : ∀ u, lo ≤ u → u < hi → ¬ Present (S.pte u) := fun u hge hlt hp =>
    absurd ((hS u (lt_of_lt_of_le hlt hbound)).1 hp) (Nat.not_lt.2 hge)
  induction fuel generalizing m S' v with
  | zero => exact absurd hfuel (Nat.not_lt_zero _)
  | succ fuel ih =>
    unfold allocuvmFrom
    by_cases hlt : v < hi
    · have hU : UserPage v := lt_of_lt_of_le hlt hbound
      have hold : oldsz < newsz := by
        have := (hsz v).2 hlt
        rw [← hlo] at hlv
        unfold PGSIZE at *
        omega
      rw [if_pos ((hsz v).2 hlt)]
      -- both ways out of memory free the pages from `lo` on, the second with a page in the hand
      have hundo : ∀ m' hand (k : ℕ → Sys Bool), Inv T UserPage m' d S' hand →
          (∀ r m'', Inv T UserPage m'' d (S'.clear lo hi) hand → Keeps T m' m'' →
            Ends L D (k r) Q m'') →
          Ends L D (deallocuvm d newsz oldsz >>= k) Q m' := by
        intro m' hand k h' hk
        refine Task.wp_bind.2 (deallocuvm_ends (by unfold KERNBASE; omega) hold (fun _ => id) hL h'
          fun m'' h'' hkeeps'' => ?_)
        rw [hlo, hhi] at h''
        exact hk _ m'' h'' hkeeps''
      have hkept := hgrown.clear hvh hfresh
      have hpages : ∀ u, UserPage u → Present (S'.pte u) → u < hi := by
        intro u hu hp
        by_contra hge
        rw [hgrown.pte (by omega), hS u hu] at hp
        omega
      refine Task.wp_bind.2 (kalloc_ends (fun hfree => ?_) fun pn free hpn => ?_)
      · exact hundo m none _ h fun _ m'' h'' hk =>
          hfalse m'' _ h'' (hkeeps.trans hk) hkept (h.atMost hfree hpages)
      · dsimp only
        refine Task.wp_bind.2 (memset_ends ?_)
        have hT : T pn := by
          refine h.ledger.sound (a := .free) ?_
          show pn ∈ m.free
          rw [hpn]
          exact List.mem_cons_self
        have hhand := (h.take hpn).fill fun _ => 0#8
        have hkeeps₁ : Keeps T m₀ (Mem.setPage { m with free := free } pn fun _ => 0#8) :=
          hkeeps.trans (keeps_setPage (m := { m with free := free }) hT)
        have hperm : PTE_W ||| PTE_U < 4096 := by decide
        obtain ⟨hpw, -, hfw, -⟩ := entry_spec hperm (hL hT).lt
        refine Task.wp_bind.2 (mappages_hand_ends hperm (fun hT => (hL hT).lt) hhand (by omega) hU ?_ (fun hfree => ?_)
          fun m' S'' h' hkeeps' hext => ?_)
        · rw [hgrown.pte (.inr le_rfl)]
          exact hfresh v hlv hlt
        · rw [if_neg (by decide)]
          refine hundo _ _ _ hhand fun _ m'' h'' hk => ?_
          refine Task.wp_bind.2 (kfree_ends (hL hT) ?_)
          exact hfalse _ _ h''.putBack ((hkeeps₁.trans hk).trans (keeps_setPage hT)) hkept
            (hhand.atMost hfree hpages)
        · rw [if_pos rfl, uint_next (by omega)]
          exact ih (by omega) (by omega) (by omega) (hkeeps₁.trans hkeeps') h'
            (hgrown.next hlv hpw hfw hext)
    · rw [if_neg (fun hx => hlt ((hsz v).1 hx))]
      obtain rfl : v = hi := by omega
      exact htrue m S' h hkeeps hgrown

theorem allocuvm_ends {Q : ℕ → Mem → Prop} {oldsz newsz : ℕ} (hold : oldsz ≤ KERNBASE)
    (hL : ∀ {pn}, T pn → L.Usable pn) (h : Inv T UserPage m d S none)
    (hS : ∀ u, UserPage u → (Present (S.pte u) ↔ u < (oldsz + 4095) / PGSIZE))
    (hbig : KERNBASE ≤ newsz → Q 0 m) (hsmall : newsz < oldsz → Q oldsz m)
    (hfail : ∀ m' S', Inv T UserPage m' d S' none → Keeps T m m' → S.Kept S' →
      AtMost T (1026 + (newsz + 4095) / PGSIZE) → Q 0 m')
    (hok : ∀ m' S', newsz < KERNBASE → oldsz ≤ newsz → Inv T UserPage m' d S' none →
      Keeps T m m' → S.Grown S' ((oldsz + 4095) / PGSIZE) ((newsz + 4095) / PGSIZE) → Q newsz m') :
    Ends L D (allocuvm d oldsz newsz) Q m := by
  unfold allocuvm
  split
  · next hge => exact hbig hge
  · split
    · next _ hlt => exact hsmall hlt
    · next hge hle =>
      have hnew : newsz < KERNBASE := Nat.lt_of_not_le hge
      have hbase : oldsz ≤ newsz := Nat.le_of_not_lt hle
      unfold KERNBASE at hold
      rw [PGROUNDUP_eq (by omega)]
      have hhi : (newsz + 4095) / PGSIZE < 1048577 := by
        unfold KERNBASE at hnew
        unfold PGSIZE
        omega
      refine Task.wp_bind.2 (allocuvmFrom_ends hL hnew rfl rfl hS le_rfl ?_ ?_ (.refl m) h
        (.refl S _) (fun m' S' h' hk hkept => hfail m' S' h' hk hkept)
        fun m' S' h' hk hgrown => hok m' S' hnew hbase h' hk hgrown)
      · exact Nat.div_le_div_right (by omega)
      · exact (Nat.sub_le _ _).trans_lt hhi

end Xv6.Vm
