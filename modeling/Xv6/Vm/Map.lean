import Xv6.Vm.Space

/-!
# Page table entries

`walkpgdir` and `mappages`, on the address spaces of `Xv6.Vm.Space`. The rules are for `Task.Wp`: the
continuation is given for every way in which the function can end. `mappages` gives up only when the
free list is empty, with the pages mapped that come before; its panic is for a page that is mapped
already.
-/

namespace Xv6.Vm

variable {L : Layout} {T U : ℕ → Prop} {m : Mem} {d pn k v w : ℕ} {S : Space}
  {hand : Option (ℕ × Bytes)} {b : Bytes} {D : String → Mem → Prop} {α : Type}

abbrev Ends (L : Layout) (D : String → Mem → Prop) (t : Sys α) (Q : α → Mem → Prop) (m : Mem) :
    Prop :=
  t.Wp (Op.perform L) (· = ·) D Q m

/-! ## Operations -/

theorem load_ends {Q : ℕ → Mem → Prop} (hQ : Q ((m.page pn).word k) m) :
    Ends L D (call (.load pn k)) Q m := by
  rintro _ rfl
  exact ⟨_, _, rfl, hQ⟩

theorem store_ends {Q : Unit → Mem → Prop} (hQ : Q () (m.setPage pn ((m.page pn).setWord k w))) :
    Ends L D (call (.store pn k w)) Q m := by
  rintro _ rfl
  exact ⟨_, _, rfl, hQ⟩

theorem memset_ends {c : Byte} {Q : Unit → Mem → Prop} (hQ : Q () (m.setPage pn fun _ => c)) :
    Ends L D (call (.memset pn c)) Q m := by
  rintro _ rfl
  exact ⟨_, _, rfl, hQ⟩

theorem memmove_ends {src : ℕ} {Q : Unit → Mem → Prop} (hQ : Q () (m.setPage pn (m.page src))) :
    Ends L D (call (.memmove pn src)) Q m := by
  rintro _ rfl
  exact ⟨_, _, rfl, hQ⟩

theorem write_ends {off : ℕ} {src : List Byte} {Q : Unit → Mem → Prop}
    (hQ : Q () (m.setPage pn ((m.page pn).splice off src))) :
    Ends L D (call (.write pn off src)) Q m := by
  rintro _ rfl
  exact ⟨_, _, rfl, hQ⟩

theorem kalloc_ends {Q : Option ℕ → Mem → Prop} (hnone : m.free = [] → Q none m)
    (hsome : ∀ pn free, m.free = pn :: free → Q (some pn) { m with free := free }) :
    Ends L D (call .kalloc) Q m := by
  rintro _ rfl
  unfold Op.perform
  dsimp only
  split
  · exact ⟨_, _, rfl, hnone ‹_›⟩
  · exact ⟨_, _, rfl, hsome _ _ ‹_›⟩

theorem panicUnless_ends {c : Prop} [Decidable c] {why : String} {Q : Unit → Mem → Prop}
    (hD : ¬ c → D why m) (hQ : c → Q () m) : Ends L D (panicUnless c why) Q m := by
  unfold panicUnless
  split
  · exact hQ ‹_›
  · exact hD ‹_›

theorem kfree_ends {Q : Unit → Mem → Prop} (hpn : L.Usable pn) (hQ : Q () (m.freed pn)) :
    Ends L D (kfree pn) Q m := by
  refine Task.wp_bind.2 ?_
  rintro _ rfl
  exact ⟨true, m.freed pn, if_pos hpn, panicUnless_ends (fun h => absurd rfl h) fun _ => hQ⟩

/-! ## `walkpgdir` -/

theorem PDX_page (hv : v < 1048576) : PDX (v * PGSIZE) = v / 1024 := by
  unfold PDX PGSIZE
  omega

theorem PTX_page (v : ℕ) : PTX (v * PGSIZE) = v % 1024 := by
  unfold PTX PGSIZE
  omega

/-- The same entries and bytes, and perhaps more page tables, with an entry in use each. -/
structure Space.Extends (S S' : Space) : Prop where
  pte : S'.pte = S.pte
  data : S'.data = S.data
  new : ∀ {k t}, S'.tab k = some t → S.tab k = some t ∨ ∃ v, v / 1024 = k ∧ Present (S'.pte v)

theorem Space.Extends.refl (S : Space) : S.Extends S := ⟨rfl, rfl, .inl⟩

theorem Space.extends_setTab {t : ℕ} (hp : Present (S.pte v)) :
    S.Extends (S.setTab (v / 1024) t) := by
  refine ⟨rfl, rfl, fun {l u} hu => ?_⟩
  by_cases hl : l = v / 1024
  · exact .inr ⟨v, hl.symm, hp⟩
  · rw [Space.setTab_of_ne _ _ hl] at hu
    exact .inl hu

theorem walkpgdir_ends {Q : Option (ℕ × ℕ) → Mem → Prop} (h : Rep U m d S) (hv : v < 1048576)
    (hnone : S.tab (v / 1024) = none → Q none m)
    (hsome : ∀ t, S.tab (v / 1024) = some t → Q (some (t, v % 1024)) m) :
    Ends L D (walkpgdir d (v * PGSIZE) false) Q m := by
  have hk : v / 1024 < 1024 := by omega
  unfold walkpgdir
  rw [PDX_page hv, PTX_page]
  refine Task.wp_bind.2 (load_ends ?_)
  cases ht : S.tab (v / 1024) with
  | none =>
    rw [if_neg (h.absent hk ht)]
    exact hnone ht
  | some t =>
    obtain ⟨hp, hpn⟩ := h.pde hk ht
    rw [if_pos hp, hpn]
    exact hsome t ht

theorem walkpgdir_alloc_ends {Q : Option (ℕ × ℕ) → Mem → Prop}
    (hT : ∀ {pn}, T pn → pn < 1048576) (h : Inv T U m d S hand) (hv : v < 1048576)
    (hnone : S.tab (v / 1024) = none → m.free = [] → Q none m)
    (hsome : ∀ t m', Inv T U m' d (S.setTab (v / 1024) t) hand → Keeps T m m' →
      Q (some (t, v % 1024)) m') :
    Ends L D (walkpgdir d (v * PGSIZE) true) Q m := by
  have hk : v / 1024 < 1024 := by omega
  unfold walkpgdir
  rw [PDX_page hv, PTX_page]
  refine Task.wp_bind.2 (load_ends ?_)
  cases ht : S.tab (v / 1024) with
  | some t =>
    obtain ⟨hp, hpn⟩ := h.rep.pde hk ht
    rw [if_pos hp, hpn]
    refine hsome t m ?_ (.refl m)
    rwa [Space.setTab_eq_self _ _ ht]
  | none =>
    rw [if_neg (h.rep.absent hk ht), if_neg (by decide)]
    refine Task.wp_bind.2 (kalloc_ends (hnone ht) fun pn free hfree => ?_)
    have hown : Owns U m d S hand .free pn := by
      show pn ∈ m.free
      rw [hfree]
      exact List.mem_cons_self
    have hdir : Owns U m d S hand .dir d := rfl
    have hne : d ≠ pn := h.ne_of_owns hdir hown nofun
    obtain ⟨hp, hpage, hlt⟩ := pde_spec (hT (h.ledger.sound hown))
    refine Task.wp_bind.2 (memset_ends (Task.wp_bind.2 (store_ends ?_)))
    refine hsome pn _ ?_ ?_
    · refine h.addTable hfree hk ht hlt hp hpage (fun q hq hqd => ?_) ?_ ?_ rfl
      · rw [Mem.setPage_of_ne _ _ hqd]
        exact Mem.setPage_of_ne _ _ hq
      · rw [Mem.setPage_self, Mem.setPage_of_ne _ _ hne]
      · rw [Mem.setPage_of_ne _ _ hne.symm]
        exact Mem.setPage_self ..
    · have hzero : Keeps T m (Mem.setPage { m with free := free } pn fun _ => 0#8) :=
        keeps_setPage (m := { m with free := free }) (h.ledger.sound hown)
      exact hzero.trans (keeps_setPage (h.ledger.sound hdir))

/-! ## `mappages` -/

def entry (q perm : ℕ) : ℕ := q % 1048576 * PGSIZE ||| perm ||| PTE_P

def Space.map (S : Space) (v n q perm : ℕ) : Space :=
  { S with pte := fun u => if v ≤ u ∧ u < v + n then entry (q + (u - v)) perm else S.pte u }

theorem uint_next (hv : v < 1048575) : uint (v * PGSIZE + PGSIZE) = (v + 1) * PGSIZE := by
  rw [uint_of_lt]
  all_goals
    unfold PGSIZE
    omega

theorem uint_add_page (q : ℕ) :
    uint (q % 1048576 * PGSIZE + PGSIZE) = (q + 1) % 1048576 * PGSIZE := by
  unfold uint PGSIZE
  omega

theorem entry_lt (q : ℕ) {perm : ℕ} (hperm : perm < 4096) : entry q perm < 4294967296 :=
  (entry_spec hperm (Nat.mod_lt q (by decide))).2.2.2

theorem entry_present (q : ℕ) {perm : ℕ} (hperm : perm < 4096) : Present (entry q perm) :=
  (entry_spec hperm (Nat.mod_lt q (by decide))).1

theorem Space.map_map (S : Space) (v n q perm : ℕ) :
    (S.map v 1 q perm).map (v + 1) n (q + 1) perm = S.map v (n + 1) q perm := by
  refine Space.ext rfl (funext fun u => ?_) rfl
  unfold Space.map
  dsimp only
  by_cases hu : u = v
  · subst hu
    rw [if_neg (by omega), if_pos (by omega), if_pos (by omega)]
  · by_cases hin : v + 1 ≤ u ∧ u < v + 1 + n
    · rw [if_pos hin, if_pos (by omega), show q + 1 + (u - (v + 1)) = q + (u - v) by omega]
    · rw [if_neg hin, if_neg (by omega), if_neg (by omega)]

theorem Space.map_zero (S : Space) (v q perm : ℕ) : S.map v 0 q perm = S :=
  Space.ext rfl (funext fun _ => if_neg (by omega)) rfl

theorem Space.present_map {S : Space} {v n q perm u : ℕ} (hperm : perm < 4096)
    (hp : Present (S.pte u)) : Present ((S.map v n q perm).pte u) := by
  unfold Space.map
  dsimp only
  split
  · exact entry_present _ hperm
  · exact hp

theorem Space.Extends.map {S S' : Space} (h : S.Extends S') (v n q : ℕ) {perm : ℕ}
    (hperm : perm < 4096) : (S.map v n q perm).Extends (S'.map v n q perm) := by
  refine ⟨?_, h.data, fun ht => ?_⟩
  · funext u
    unfold Space.map
    dsimp only
    rw [h.pte]
  · exact (h.new ht).imp_right fun ⟨u, hu, hp⟩ => ⟨u, hu, present_map hperm hp⟩

theorem Space.Extends.trans {S S' S'' : Space} (h : S.Extends S') (h' : S'.Extends S'') :
    S.Extends S'' := by
  refine ⟨h'.pte.trans h.pte, h'.data.trans h.data, fun ht => ?_⟩
  rcases h'.new ht with hold | hin
  · rw [h'.pte]
    exact h.new hold
  · exact .inr hin

theorem Space.put_eq_map (S : Space) (v q perm : ℕ) :
    S.put v (entry q perm) (S.data v) = S.map v 1 q perm := by
  refine Space.ext rfl (funext fun u => ?_) (Function.update_eq_self ..)
  unfold Space.map
  dsimp only
  by_cases hu : u = v
  · subst hu
    rw [Space.put_pte_self, if_pos (by omega), Nat.sub_self, Nat.add_zero]
  · rw [Space.put_pte_of_ne _ _ _ hu, if_neg (by omega)]

section Range

variable {q perm : ℕ} (hperm : perm < 4096) (hT : ∀ {pn}, T pn → pn < 1048576)
include hperm hT

theorem mappagesFrom_step {Q : Bool → Mem → Prop} {last fuel : ℕ} (h : Inv T U m d S hand)
    (hv : v < 1048576) (hU : ¬ U v) (hD : ∀ m', Present (S.pte v) → D "remap" m')
    (hnone : m.free = [] → Q false m)
    (hnext : ∀ m' S', ¬ Present (S.pte v) → Inv T U m' d S' hand → Keeps T m m' →
      (S.map v 1 q perm).Extends S' →
      Ends L D (if v * PGSIZE = last then return true else mappagesFrom d last perm fuel
        (uint (v * PGSIZE + PGSIZE)) (uint (q % 1048576 * PGSIZE + PGSIZE))) Q m') :
    Ends L D (mappagesFrom d last perm (fuel + 1) (v * PGSIZE) (q % 1048576 * PGSIZE)) Q m := by
  have hk : v / 1024 < 1024 := by omega
  unfold mappagesFrom
  refine Task.wp_bind.2 (walkpgdir_alloc_ends hT h hv (fun _ => hnone)
    fun t m' h' hkeeps => ?_)
  have ht := S.setTab_self (v / 1024) t
  refine Task.wp_bind.2 (load_ends ?_)
  rw [h'.rep.pte hk ht (Nat.mod_lt _ (by decide)), index_of, Space.setTab_pte]
  refine Task.wp_bind.2 (panicUnless_ends (fun hp => hD m' (not_not.1 hp)) fun hfresh => ?_)
  refine Task.wp_bind.2 (store_ends ?_)
  refine hnext _ ((S.map v 1 q perm).setTab (v / 1024) t) hfresh ?_ (hkeeps.trans (keeps_setPage ?_))
    (Space.extends_setTab ?_)
  · rw [← Space.put_eq_map]
    exact h'.setKernel hv ht (entry_lt q hperm) hU
  · exact h'.ledger.sound (a := .tab (v / 1024)) ⟨hk, ht⟩
  · rw [← Space.put_eq_map, Space.put_pte_self]
    exact entry_present q hperm

theorem mappagesFrom_ends {Q : Bool → Mem → Prop} (n : ℕ) {fuel : ℕ} (hfuel : n < fuel)
    (h : Inv T U m d S hand) (hv : v + n < 1048576) (hU : ∀ u, v ≤ u → u ≤ v + n → ¬ U u)
    (hD : ∀ m' u, v ≤ u → u ≤ v + n → Present (S.pte u) → D "remap" m')
    (hfalse : ∀ m' S' j, m'.free = [] → j ≤ n → Inv T U m' d S' hand → Keeps T m m' →
      (S.map v j q perm).Extends S' → Q false m')
    (htrue : ∀ m' S', (∀ u, v ≤ u → u ≤ v + n → ¬ Present (S.pte u)) → Inv T U m' d S' hand →
      Keeps T m m' → (S.map v (n + 1) q perm).Extends S' → Q true m') :
    Ends L D (mappagesFrom d ((v + n) * PGSIZE) perm fuel (v * PGSIZE) (q % 1048576 * PGSIZE)) Q
      m := by
  obtain ⟨fuel, rfl⟩ : ∃ f, fuel = f + 1 := ⟨fuel - 1, by omega⟩
  have hgive : m.free = [] → Q false m := fun hfree => by
    refine hfalse m S 0 hfree (Nat.zero_le _) h (.refl m) ?_
    rw [Space.map_zero]
    exact .refl S
  induction n generalizing m S v q fuel with
  | zero =>
    refine mappagesFrom_step hperm hT h hv (hU v le_rfl le_rfl)
      (fun m' => hD m' v le_rfl le_rfl) hgive fun m' S' hfresh h' hkeeps hext => ?_
    rw [Nat.add_zero, if_pos rfl]
    refine htrue m' S' (fun u hu hu' => ?_) h' hkeeps hext
    obtain rfl : u = v := by omega
    exact hfresh
  | succ n ih =>
    refine mappagesFrom_step hperm hT h (by omega) (hU v le_rfl (by omega))
      (fun m' => hD m' v le_rfl (by omega)) hgive fun m' S' hfresh h' hkeeps hext => ?_
    obtain ⟨fuel, rfl⟩ : ∃ f, fuel = f + 1 := ⟨fuel - 1, by omega⟩
    have hne : v * PGSIZE ≠ (v + (n + 1)) * PGSIZE := by
      unfold PGSIZE
      omega
    have hpte : ∀ u, v + 1 ≤ u → S'.pte u = S.pte u := by
      intro u hu
      rw [hext.pte]
      exact if_neg (by omega)
    rw [if_neg hne, uint_next (by omega), uint_add_page, show v + (n + 1) = v + 1 + n by omega]
    refine ih h' (by omega) (fun u hu hu' => hU u (by omega) (by omega)) (fun m'' u hu hu' hp => ?_)
      (fun m'' S'' j hfree hj h'' hkeeps' hext' => ?_) (fun m'' S'' hrest h'' hkeeps' hext' => ?_)
      fuel (by omega) fun hfree => ?_
    · rw [hpte u hu] at hp
      exact hD m'' u (by omega) (by omega) hp
    · refine hfalse m'' S'' (j + 1) hfree (by omega) h'' (hkeeps.trans hkeeps') ?_
      rw [← Space.map_map]
      exact (hext.map _ _ _ hperm).trans hext'
    · refine htrue m'' S'' (fun u hu hu' => ?_) h'' (hkeeps.trans hkeeps') ?_
      · by_cases huv : u = v
        · subst huv
          exact hfresh
        · rw [← hpte u (by omega)]
          exact hrest u (by omega) (by omega)
      · rw [← Space.map_map]
        exact (hext.map _ _ _ hperm).trans hext'
    · exact hfalse m' S' 1 hfree (by omega) h' hkeeps hext

end Range

theorem mappages_hand_ends {Q : Bool → Mem → Prop} {perm : ℕ} (hperm : perm < 4096)
    (hT : ∀ {pn}, T pn → pn < 1048576) (h : Inv T U m d S (some (pn, b))) (hv : v < 1048576)
    (hU : U v) (hfresh : ¬ Present (S.pte v)) (hfalse : m.free = [] → Q false m)
    (htrue : ∀ m' S', Inv T U m' d S' none → Keeps T m m' →
      (S.put v (pn * PGSIZE ||| perm ||| PTE_P) b).Extends S' → Q true m') :
    Ends L D (mappages d (v * PGSIZE) PGSIZE (pn * PGSIZE) perm) Q m := by
  have hk : v / 1024 < 1024 := by omega
  have hlast : PGROUNDDOWN (uintOf (((v * PGSIZE : ℕ) : ℤ) + (PGSIZE : ℕ) - 1)) = v * PGSIZE := by
    unfold PGROUNDDOWN uintOf PGSIZE
    omega
  have ha : PGROUNDDOWN (v * PGSIZE) = v * PGSIZE := by
    unfold PGROUNDDOWN PGSIZE
    omega
  unfold mappages
  rw [hlast, ha]
  unfold mappagesFrom
  refine Task.wp_bind.2 (walkpgdir_alloc_ends hT h hv (fun _ => hfalse) fun t m' h' hkeeps => ?_)
  have ht := S.setTab_self (v / 1024) t
  refine Task.wp_bind.2 (load_ends ?_)
  rw [h'.rep.pte hk ht (Nat.mod_lt _ (by decide)), index_of, Space.setTab_pte]
  refine Task.wp_bind.2 (panicUnless_ends (fun hp => absurd hfresh hp) fun _ => ?_)
  refine Task.wp_bind.2 (store_ends ?_)
  rw [if_pos rfl]
  have hown : Owns U m d S (some (pn, b)) .hand pn := rfl
  obtain ⟨hp, hpage, -, hlt⟩ := entry_spec hperm (hT (h.ledger.sound hown))
  refine htrue _ ((S.put v (pn * PGSIZE ||| perm ||| PTE_P) b).setTab (v / 1024) t) ?_
    (hkeeps.trans (keeps_setPage ?_)) (Space.extends_setTab ?_)
  · exact h'.mapHand hv ht hlt hU hfresh hp hpage
  · exact h'.ledger.sound (a := .tab (v / 1024)) ⟨hk, ht⟩
  · rw [Space.put_pte_self]
    exact hp

end Xv6.Vm
