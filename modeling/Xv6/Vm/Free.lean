import Xv6.Vm.Map

/-!
# Freeing address spaces

`deallocuvm` frees the pages of a range and clears their entries: where a page table is absent it goes
on to the next one, and the entries that it passes over are not present. `freevm` frees all that
belongs to a page directory, so that afterwards all the pages of the ledger are free.
-/

namespace Xv6.Vm

variable {L : Layout} {T U : ℕ → Prop} {m : Mem} {d pn k v w : ℕ} {S : Space}
  {hand : Option (ℕ × Bytes)} {b : Bytes} {D : String → Mem → Prop} {α : Type}

/-! ## `deallocuvm` -/

def Space.clear (S : Space) (lo hi : ℕ) : Space :=
  { S with pte := fun u => if lo ≤ u ∧ u < hi ∧ Present (S.pte u) then 0 else S.pte u }

theorem Space.clear_of_le (S : Space) {lo hi : ℕ} (h : hi ≤ lo) : S.clear lo hi = S :=
  Space.ext rfl (funext fun _ => if_neg (by omega)) rfl

theorem Space.not_present_clear (S : Space) {lo hi u : ℕ} (hlo : lo ≤ u) (hhi : u < hi) :
    ¬ Present ((S.clear lo hi).pte u) := by
  intro hp
  unfold Space.clear at hp
  dsimp only at hp
  split at hp
  · cases hp
  · next hnot => exact hnot ⟨hlo, hhi, hp⟩

theorem Space.clear_skip (S : Space) {lo lo' hi : ℕ} (hle : lo ≤ lo')
    (h : ∀ u, lo ≤ u → u < lo' → ¬ Present (S.pte u)) : S.clear lo' hi = S.clear lo hi := by
  refine Space.ext rfl (funext fun u => ?_) rfl
  unfold Space.clear
  dsimp only
  by_cases hin : lo ≤ u ∧ u < hi ∧ Present (S.pte u)
  · have hlo : lo' ≤ u := by
      by_contra hlt
      exact h u hin.1 (by omega) hin.2.2
    rw [if_pos ⟨hlo, hin.2⟩, if_pos hin]
  · rw [if_neg (fun hx => hin ⟨by omega, hx.2⟩), if_neg hin]

theorem Space.clear_put (S : Space) {hi : ℕ} (hv : v < hi) (hp : Present (S.pte v)) :
    (S.put v 0 (S.data v)).clear (v + 1) hi = S.clear v hi := by
  refine Space.ext rfl (funext fun u => ?_) (Function.update_eq_self ..)
  unfold Space.clear
  dsimp only
  by_cases hu : u = v
  · subst hu
    rw [if_neg (by omega), Space.put_pte_self, if_pos ⟨le_rfl, hv, hp⟩]
  · rw [Space.put_pte_of_ne _ _ _ hu]
    exact if_congr (and_congr_left' (by omega)) rfl rfl

theorem uint_skip (hv : v < 524288) :
    uint (uintOf ((PGADDR (PDX (v * PGSIZE) + 1) : ℤ) - PGSIZE) + PGSIZE) =
      1024 * (v / 1024 + 1) * PGSIZE := by
  have haddr : PGADDR (PDX (v * PGSIZE) + 1) = (v / 1024 + 1) * 4194304 := by
    unfold PGADDR
    rw [PDX_page (by omega), uint_of_lt (by omega)]
  rw [haddr]
  unfold uintOf
  rw [uint_of_lt]
  all_goals
    unfold PGSIZE
    omega

theorem deallocuvmFrom_ends {Q : Unit → Mem → Prop} {oldsz hi fuel : ℕ}
    (hsz : ∀ u, u * PGSIZE < oldsz ↔ u < hi) (hhi : hi ≤ 524288)
    (hU : ∀ u, v ≤ u → u < hi → U u)
    (hL : ∀ u, v ≤ u → u < hi → Present (S.pte u) → L.Usable (pageOf (S.pte u)))
    (hfuel : hi - v < fuel) (h : Inv T U m d S hand)
    (hQ : ∀ m', Inv T U m' d (S.clear v hi) hand → Keeps T m m' → Q () m') :
    Ends L D (deallocuvmFrom d oldsz fuel (v * PGSIZE)) Q m := by
  induction fuel generalizing m S v with
  | zero => exact absurd hfuel (Nat.not_lt_zero _)
  | succ fuel ih =>
    unfold deallocuvmFrom
    by_cases hv : v < hi
    · have hk : v / 1024 < 1024 := by omega
      rw [if_pos ((hsz v).2 hv)]
      refine Task.wp_bind.2 (walkpgdir_ends h.rep (by omega) (fun hnone => ?_) fun t ht => ?_)
      · -- no page table: the entries up to the next one are zero
        dsimp only
        rw [uint_skip (by omega)]
        refine ih (fun u hu => hU u (by omega)) (fun u hu => hL u (by omega)) (by omega) h
          fun m' h' hkeeps => hQ m' ?_ hkeeps
        have hskip : S.clear (1024 * (v / 1024 + 1)) hi = S.clear v hi := by
          refine S.clear_skip (by omega) fun u hu hu' hp => ?_
          have hzero := h.rep.zero hk hnone (j := u - 1024 * (v / 1024)) (by omega)
          rw [show 1024 * (v / 1024) + (u - 1024 * (v / 1024)) = u by omega] at hzero
          rw [hzero] at hp
          cases hp
        rw [← hskip]
        exact h'
      · dsimp only
        refine Task.wp_bind.2 (load_ends ?_)
        rw [h.rep.pte hk ht (Nat.mod_lt _ (by decide)), index_of, uint_next (by omega)]
        by_cases hp : Present (S.pte v)
        · have hown : Owns U m d S hand (.page v) (pageOf (S.pte v)) := ⟨hU v le_rfl hv, hp, rfl⟩
          have hpos := (hL v le_rfl hv hp).bounds.1
          have htab : Owns U m d S hand (.tab (v / 1024)) t := ⟨hk, ht⟩
          rw [if_pos hp]
          refine Task.wp_bind.2 (panicUnless_ends (fun hx => absurd hpos.ne' hx) fun _ => ?_)
          refine Task.wp_bind.2 (kfree_ends (hL v le_rfl hv hp) ?_)
          refine Task.wp_bind.2 (store_ends ?_)
          have hrest : ∀ u, v + 1 ≤ u → (S.put v 0 (S.data v)).pte u = S.pte u := fun u hu =>
            Space.put_pte_of_ne _ _ _ (by omega)
          refine ih (fun u hu => hU u (by omega)) (fun u hu hlt hpu => ?_) (by omega)
            (h.unmap (by omega) ht (hU v le_rfl hv) hp) fun m' h' hkeeps => ?_
          · rw [hrest u hu] at hpu ⊢
            exact hL u (by omega) hlt hpu
          rw [Space.clear_put S hv hp] at h'
          refine hQ m' h' (Keeps.trans ?_ hkeeps)
          have hfreed : Keeps T m (m.freed (pageOf (S.pte v))) :=
            keeps_setPage (h.ledger.sound hown)
          exact hfreed.trans (keeps_setPage (h.ledger.sound htab))
        · rw [if_neg hp]
          refine ih (fun u hu => hU u (by omega)) (fun u hu => hL u (by omega)) (by omega) h
            fun m' h' hkeeps => hQ m' ?_ hkeeps
          have hskip : S.clear (v + 1) hi = S.clear v hi := by
            refine S.clear_skip (Nat.le_succ v) fun u hu hu' hpu => ?_
            obtain rfl : u = v := by omega
            exact hp hpu
          rw [← hskip]
          exact h'
    · rw [if_neg (fun hlt => hv ((hsz v).1 hlt))]
      refine hQ m ?_ (.refl m)
      rw [Space.clear_of_le S (by omega)]
      exact h

theorem lt_size_iff (u sz : ℕ) : u * PGSIZE < sz ↔ u < (sz + 4095) / PGSIZE := by
  unfold PGSIZE
  omega

theorem PGROUNDUP_eq {sz : ℕ} (h : sz ≤ 4294963200) :
    PGROUNDUP sz = (sz + 4095) / PGSIZE * PGSIZE := by
  unfold PGROUNDUP
  rw [uint_of_lt (by omega)]

theorem deallocuvm_ends {Q : ℕ → Mem → Prop} {oldsz newsz : ℕ} (hold : oldsz ≤ KERNBASE)
    (hlt : newsz < oldsz) (hU : ∀ u, UserPage u → U u) (hL : ∀ {pn}, T pn → L.Usable pn)
    (h : Inv T U m d S hand)
    (hQ : ∀ m', Inv T U m' d (S.clear ((newsz + 4095) / PGSIZE) ((oldsz + 4095) / PGSIZE)) hand →
      Keeps T m m' → Q newsz m') : Ends L D (deallocuvm d oldsz newsz) Q m := by
  unfold KERNBASE at hold
  have hhi : (oldsz + 4095) / PGSIZE ≤ 524288 := by
    unfold PGSIZE
    omega
  unfold deallocuvm
  rw [if_neg (by omega), PGROUNDUP_eq (by omega)]
  have hU' : ∀ u, u < (oldsz + 4095) / PGSIZE → U u := fun u hu => hU u (lt_of_lt_of_le hu hhi)
  have hL' : ∀ u, u < (oldsz + 4095) / PGSIZE → Present (S.pte u) →
      L.Usable (pageOf (S.pte u)) := by
    intro u hu hp
    have hown : Owns U m d S hand (.page u) (pageOf (S.pte u)) := ⟨hU' u hu, hp, rfl⟩
    exact hL (h.ledger.sound hown)
  refine Task.wp_bind.2 (deallocuvmFrom_ends (fun u => lt_size_iff u oldsz) hhi
    (fun u _ => hU' u) (fun u _ => hL' u) ?_ h fun m' h' hkeeps => hQ m' h' hkeeps)
  exact (Nat.sub_le _ _).trans_lt (hhi.trans_lt (by decide))

/-! ## `freevm` -/

def Space.tables (S : Space) (i : ℕ) : Space :=
  { S with tab := fun k => if k < i then none else S.tab k }

/-- All the pages of `T` are free, but for the page directory and the page tables from `i` on. -/
structure Freeing (T : ℕ → Prop) (m : Mem) (d : ℕ) (S : Space) (i : ℕ) : Prop where
  absent : ∀ {k}, i ≤ k → k < 1024 → S.tab k = none → ¬ Present ((m.page d).word k)
  pde : ∀ {k t}, i ≤ k → k < 1024 → S.tab k = some t →
    Present ((m.page d).word k) ∧ pageOf ((m.page d).word k) = t
  ledger : Ledger T (Owns (fun _ => False) m d (S.tables i) none)
  nodup : m.free.Nodup

theorem Freeing.skip {i : ℕ} (h : Freeing T m d S i) (ht : S.tab i = none) :
    Freeing T m d S (i + 1) := by
  refine ⟨fun hk => h.absent (by omega), fun hk => h.pde (by omega), ?_, h.nodup⟩
  have htab : S.tables (i + 1) = S.tables i := by
    refine Space.ext (funext fun k => ?_) rfl rfl
    show (if k < i + 1 then none else S.tab k) = if k < i then none else S.tab k
    by_cases hk : k = i
    · subst hk
      rw [if_pos (Nat.lt_succ_self k), if_neg (lt_irrefl k), ht]
    · exact if_congr (by omega) rfl rfl
  rw [htab]
  exact h.ledger

theorem Freeing.next {i t : ℕ} (h : Freeing T m d S i) (hi : i < 1024)
    (ht : S.tab i = some t) : Freeing T (m.freed t) d S (i + 1) := by
  have hown : Owns (fun _ => False) m d (S.tables i) none (.tab i) t :=
    ⟨hi, (if_neg (lt_irrefl i)).trans ht⟩
  have hnot : t ∉ m.free := fun hin =>
    Owner.noConfusion (h.ledger.unique (a := .free) (b := t) hin hown)
  have hdir : d ≠ t := by
    rintro rfl
    exact Owner.noConfusion (h.ledger.unique (a := .dir) (b := d) rfl hown)
  have hpage : (m.freed t).page d = m.page d := Mem.setPage_of_ne m _ hdir
  refine ⟨fun hk => ?_, fun hk => ?_, ?_, List.nodup_cons.2 ⟨hnot, h.nodup⟩⟩
  · rw [hpage]
    exact h.absent (by omega)
  · rw [hpage]
    exact h.pde (by omega)
  · refine h.ledger.give .free hown nofun (fun q => ?_) (fun q => ?_) fun o ho ho' q => ?_
    · show i < 1024 ∧ (if i < i + 1 then none else S.tab i) = some q ↔
        (i < 1024 ∧ (if i < i then none else S.tab i) = some q) ∧ q ≠ t
      rw [if_pos (Nat.lt_succ_self i), if_neg (lt_irrefl i), ht, Option.some.injEq]
      exact iff_of_false (fun hx => nomatch hx.2) fun hx => hx.2 hx.1.2.symm
    · show q ∈ t :: m.free ↔ q ∈ m.free ∨ q = t
      rw [List.mem_cons, or_comm]
    · cases o with
      | free => exact absurd rfl ho'
      | hand | dir | page => exact Iff.rfl
      | tab k =>
        have hk : k ≠ i := fun heq => ho (heq ▸ rfl)
        show k < 1024 ∧ (if k < i + 1 then none else S.tab k) = some q ↔
          k < 1024 ∧ (if k < i then none else S.tab k) = some q
        rw [if_congr (show k < i + 1 ↔ k < i by omega) rfl rfl]

theorem freeTables_ends {Q : Unit → Mem → Prop} (n : ℕ) {i : ℕ} (hi : i + n = 1024)
    (hL : ∀ {pn}, T pn → L.Usable pn) (h : Freeing T m d S i)
    (hQ : ∀ m', Freeing T m' d S 1024 → Keeps T m m' → Q () m') :
    Ends L D (freeTables d (List.range' i n)) Q m := by
  induction n generalizing m i with
  | zero =>
    obtain rfl : i = 1024 := by omega
    exact hQ m h (.refl m)
  | succ n ih =>
    show Ends L D (freeTables d (i :: List.range' (i + 1) n)) Q m
    unfold freeTables
    refine Task.wp_bind.2 (load_ends ?_)
    cases ht : S.tab i with
    | none =>
      rw [if_neg (h.absent le_rfl (by omega) ht)]
      exact ih (by omega) (h.skip ht) hQ
    | some t =>
      obtain ⟨hp, hpn⟩ := h.pde le_rfl (by omega) ht
      rw [if_pos hp, hpn]
      have hown : Owns (fun _ => False) m d (S.tables i) none (.tab i) t :=
        ⟨by omega, (if_neg (lt_irrefl i)).trans ht⟩
      have hT := h.ledger.sound hown
      refine Task.wp_bind.2 (kfree_ends (hL hT) ?_)
      refine ih (by omega) (h.next (by omega) ht) fun m' h' hkeeps => hQ m' h' ?_
      exact Keeps.trans (keeps_setPage hT) hkeeps

/-- All of `T` is free. -/
structure AllFree (T : ℕ → Prop) (m : Mem) : Prop where
  mem : ∀ pn, pn ∈ m.free ↔ T pn
  nodup : m.free.Nodup

theorem Freeing.allFree (h : Freeing T m d S 1024) : AllFree T (m.freed d) := by
  have hdir : Owns (fun _ => False) m d (S.tables 1024) none .dir d := rfl
  have hnot : d ∉ m.free := fun hin =>
    Owner.noConfusion (h.ledger.unique (a := .free) (b := d) hin hdir)
  refine ⟨fun pn => ⟨fun hin => ?_, fun hT => ?_⟩, List.nodup_cons.2 ⟨hnot, h.nodup⟩⟩
  · rcases List.mem_cons.1 hin with rfl | hin
    · exact h.ledger.sound hdir
    · exact h.ledger.sound (a := .free) hin
  · obtain ⟨o, ho⟩ := h.ledger.complete hT
    refine List.mem_cons.2 ?_
    cases o with
    | free => exact .inr ho
    | hand => cases ho
    | dir => exact .inl ho
    | tab k =>
      obtain ⟨hk, hx⟩ := ho
      rw [show (S.tables 1024).tab k = none from if_pos hk] at hx
      cases hx
    | page u => exact absurd ho.1 id

theorem Inv.freeing (h : Inv T U m d S none) (hU : ∀ u, U u → ¬ Present (S.pte u)) :
    Freeing T m d S 0 := by
  refine ⟨fun _ => h.rep.absent, fun _ => h.rep.pde, ?_, h.nodup⟩
  refine h.ledger.congr (fun _ => Iff.rfl) fun o q => ?_
  cases o with
  | free | hand | dir => exact Iff.rfl
  | tab k => exact Iff.rfl
  | page u => exact iff_of_false (fun hx => hx.1) fun hx => hU u hx.1 hx.2.1

theorem freevm_ends {Q : Unit → Mem → Prop} (hU : ∀ u, U u ↔ UserPage u)
    (hL : ∀ {pn}, T pn → L.Usable pn) (h : Inv T U m d S none)
    (hQ : ∀ m', AllFree T m' → Keeps T m m' → Q () m') : Ends L D (freevm d) Q m := by
  have hdir : Owns U m d S none .dir d := rfl
  have hT := h.ledger.sound hdir
  unfold freevm
  refine Task.wp_bind.2 (panicUnless_ends (fun hx => absurd (hL hT).bounds.1.ne' hx) fun _ => ?_)
  have hbase : 0 < KERNBASE := by
    unfold KERNBASE
    omega
  refine Task.wp_bind.2 (deallocuvm_ends le_rfl hbase (fun u => (hU u).2) hL h
    fun m' h' hkeeps => ?_)
  have hfreeing := h'.freeing fun u hu => S.not_present_clear (Nat.zero_le u) ((hU u).1 hu)
  show Ends L D (do freeTables d (List.range NPDENTRIES); kfree d) Q m'
  rw [List.range_eq_range']
  refine Task.wp_bind.2 (freeTables_ends 1024 rfl hL hfreeing fun m'' h'' hkeeps' => ?_)
  refine kfree_ends (hL hT) (hQ _ h''.allFree ?_)
  exact (hkeeps.trans hkeeps').trans (keeps_setPage hT)

end Xv6.Vm
