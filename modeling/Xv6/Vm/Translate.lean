import Xv6.Vm.Map

/-!
# Translation

What a page directory is for: a partial map from virtual pages to physical pages and flags. On it
`walkpgdir` does nothing, page tables or not, and `mappages` enters the pages that its range touches.
The page tables have to be pages of their own; what the pages that are mapped hold does not matter, so
here no virtual page owns its page.
-/

namespace Xv6.Vm

variable {L : Layout} {T U : ℕ → Prop} {m m' : Mem} {d va size pa perm : ℕ} {S : Space}
  {hand : Option (ℕ × Bytes)}

abbrev PageMap := ℕ → Option (ℕ × ℕ)

/-- What an entry says. -/
def translation (pte : ℕ) : Option (ℕ × ℕ) :=
  if Present pte then some (pageOf pte, PTE_FLAGS pte) else none

def Mem.translate (m : Mem) (d : ℕ) : PageMap := fun v => translation (m.pte d v)

def Covers (va size v : ℕ) : Prop := ∃ a, va ≤ a ∧ a < va + size ∧ a / PGSIZE = v

/-- The pages of a range have been entered: none of them was there, they go to consecutive physical
pages, and the other pages go where they went. -/
structure PageMap.Entered (f g : PageMap) (va size pa flags : ℕ) : Prop where
  fresh : ∀ v, Covers va size v → f v = none
  new : ∀ v, Covers va size v → g v = some ((pa / PGSIZE + (v - va / PGSIZE)) % 1048576, flags)
  old : ∀ v, v < 1048576 → ¬ Covers va size v → g v = f v

/-- The present entries of a page directory point to pairwise distinct page tables. A page table is
neither the page directory nor free, and the free pages are pages of the machine. -/
structure Tables (m : Mem) (d : ℕ) : Prop where
  distinct : ∀ {k l t}, k < 1024 → l < 1024 → m.table d k = some t → m.table d l = some t → k = l
  ne_dir : ∀ {k t}, k < 1024 → m.table d k = some t → t ≠ d
  not_free : ∀ {k t}, k < 1024 → m.table d k = some t → t ∉ m.free
  dir_lt : d < 1048576
  dir_not_free : d ∉ m.free
  free_lt : ∀ {pn}, pn ∈ m.free → pn < 1048576
  nodup : m.free.Nodup

/-! ## As an address space -/

/-- The virtual pages of `U` have pages of their own: no two of them share a page, and it is neither
the page directory nor a page table nor free. -/
structure Owned (U : ℕ → Prop) (m : Mem) (d : ℕ) : Prop where
  distinct : ∀ {u v}, U u → U v → Present (m.pte d u) → Present (m.pte d v) →
    pageOf (m.pte d u) = pageOf (m.pte d v) → u = v
  ne_dir : ∀ {v}, U v → Present (m.pte d v) → pageOf (m.pte d v) ≠ d
  ne_table : ∀ {v k}, U v → Present (m.pte d v) → k < 1024 → m.table d k ≠ some (pageOf (m.pte d v))
  not_free : ∀ {v}, U v → Present (m.pte d v) → pageOf (m.pte d v) ∉ m.free

theorem Owned.nothing (m : Mem) (d : ℕ) : Owned (fun _ => False) m d :=
  ⟨nofun, nofun, nofun, nofun⟩

def Tables.Pages (U : ℕ → Prop) (m : Mem) (d pn : ℕ) : Prop :=
  pn = d ∨ pn ∈ m.free ∨ (∃ k < 1024, m.table d k = some pn) ∨
    ∃ v, U v ∧ Present (m.pte d v) ∧ pageOf (m.pte d v) = pn

theorem Tables.inv (h : Tables m d) (hU : Owned U m d) :
    Inv (Tables.Pages U m d) U m d (m.space d) none := by
  refine ⟨m.rep_space d, nofun, ⟨fun {o pn} ho => ?_, fun {o o' pn} ho ho' => ?_, fun {pn} hpn => ?_⟩,
    h.nodup⟩
  · cases o with
    | free => exact .inr (.inl ho)
    | hand => cases ho
    | dir => exact .inl ho
    | tab k => exact .inr (.inr (.inl ⟨k, ho⟩))
    | page v => exact .inr (.inr (.inr ⟨v, ho⟩))
  · -- two owners of one page
    cases o with
    | free =>
      cases o' with
      | free => rfl
      | hand => cases ho'
      | dir => exact absurd ((show pn = d from ho') ▸ ho) h.dir_not_free
      | tab k => exact absurd ho (h.not_free ho'.1 ho'.2)
      | page v => exact absurd (ho'.2.2 ▸ ho) (hU.not_free ho'.1 ho'.2.1)
    | hand => cases ho
    | dir =>
      cases o' with
      | free => exact absurd ((show pn = d from ho) ▸ ho') h.dir_not_free
      | hand => cases ho'
      | dir => rfl
      | tab k => exact absurd ho (h.ne_dir ho'.1 ho'.2)
      | page v => exact absurd (ho'.2.2.trans ho) (hU.ne_dir ho'.1 ho'.2.1)
    | tab k =>
      cases o' with
      | free => exact absurd ho' (h.not_free ho.1 ho.2)
      | hand => cases ho'
      | dir => exact absurd ho' (h.ne_dir ho.1 ho.2)
      | tab l => exact congrArg Owner.tab (h.distinct ho.1 ho'.1 ho.2 ho'.2)
      | page v => exact absurd (ho'.2.2 ▸ ho.2) (hU.ne_table ho'.1 ho'.2.1 ho.1)
    | page u =>
      cases o' with
      | free => exact absurd (ho.2.2 ▸ ho') (hU.not_free ho.1 ho.2.1)
      | hand => cases ho'
      | dir => exact absurd (ho.2.2.trans ho') (hU.ne_dir ho.1 ho.2.1)
      | tab k => exact absurd (ho.2.2 ▸ ho'.2) (hU.ne_table ho.1 ho.2.1 ho'.1)
      | page v =>
        have hpage : pageOf (m.pte d u) = pageOf (m.pte d v) := ho.2.2.trans ho'.2.2.symm
        exact congrArg Owner.page (hU.distinct ho.1 ho'.1 ho.2.1 ho'.2.1 hpage)
  · rcases hpn with rfl | hfree | ⟨k, hk, ht⟩ | ⟨v, hv⟩
    · exact ⟨.dir, rfl⟩
    · exact ⟨.free, hfree⟩
    · exact ⟨.tab k, hk, ht⟩
    · exact ⟨.page v, hv⟩

theorem Mem.table_lt {k t : ℕ} (h : m.table d k = some t) : t < 1048576 := by
  unfold Mem.table at h
  split at h
  · have hword : (m.page d).word k < 4294967296 := Bytes.word_lt ..
    cases h
    unfold pageOf PGSIZE
    omega
  · cases h

theorem Tables.pages_lt (h : Tables m d) {pn : ℕ} (hpn : Tables.Pages (fun _ => False) m d pn) :
    pn < 1048576 := by
  rcases hpn with rfl | hfree | ⟨k, -, ht⟩ | ⟨v, hv, -⟩
  · exact h.dir_lt
  · exact h.free_lt hfree
  · exact Mem.table_lt ht
  · exact hv.elim

theorem Tables.of_inv (hT : ∀ {pn}, T pn → pn < 1048576)
    (h : Inv T (fun _ => False) m d S hand) : Tables m d := by
  have hown : ∀ {k t}, k < 1024 → m.table d k = some t →
      Owns (fun _ => False) m d S hand (.tab k) t := by
    intro k t hk ht
    rw [h.rep.table_eq hk] at ht
    exact ⟨hk, ht⟩
  have hdir : Owns (fun _ => False) m d S hand .dir d := rfl
  refine ⟨fun hk hl ht ht' => ?_, fun hk ht => ?_, fun hk ht hin => ?_, hT (h.ledger.sound hdir),
    fun hin => ?_, fun {pn} hin => ?_, h.nodup⟩
  · exact Owner.tab.inj (h.ledger.unique (hown hk ht) (hown hl ht'))
  · exact h.ne_of_owns (hown hk ht) hdir nofun
  · exact h.ne_of_owns (o := .free) hin (hown hk ht) nofun rfl
  · exact h.ne_of_owns (o := .free) hin hdir nofun rfl
  · exact hT (h.ledger.sound (a := .free) hin)

theorem translate_eq (h : Inv T (fun _ => False) m d S hand) {v : ℕ} (hv : v < 1048576) :
    m.translate d v = translation (S.pte v) := by
  unfold Mem.translate
  rw [h.rep.pte_eq hv]

theorem translation_entry (q : ℕ) (hperm : perm < 4096) :
    translation (entry q perm) = some (q % 1048576, perm ||| PTE_P) := by
  obtain ⟨hp, hpage, hflags, -⟩ := entry_spec hperm (Nat.mod_lt q (by decide : 0 < 1048576))
  unfold translation entry
  rw [if_pos hp, hpage, hflags]
  rfl

theorem translation_eq_none {pte : ℕ} : translation pte = none ↔ ¬ Present pte := by
  unfold translation
  split
  · next hp => exact iff_of_false nofun (not_not_intro hp)
  · next hp => exact iff_of_true rfl hp

/-! ## `walkpgdir` -/

theorem walkpgdir_page (d va : ℕ) (alloc : Bool) :
    walkpgdir d va alloc = walkpgdir d (va / PGSIZE * PGSIZE) alloc := by
  have hpdx : PDX (va / PGSIZE * PGSIZE) = PDX va := by
    unfold PDX PGSIZE
    omega
  have hptx : PTX (va / PGSIZE * PGSIZE) = PTX va := by
    unfold PTX PGSIZE
    omega
  unfold walkpgdir
  rw [hpdx, hptx]

def Mem.slot (m : Mem) (d v : ℕ) : Option (ℕ × ℕ) :=
  (m.table d (v / 1024)).map fun t => (t, v % 1024)

/-- `walkpgdir` ends with the place of the entry, and the map is the same. Without `alloc` nothing
changes; with it there is no place only if no page is free. -/
structure Walked (m m' : Mem) (d va : ℕ) (alloc : Bool) (x : Option (ℕ × ℕ)) : Prop where
  slot : x = m'.slot d (va / PGSIZE)
  translate : ∀ v < 1048576, m'.translate d v = m.translate d v
  tables : Tables m' d
  same : alloc = false → m' = m
  none : alloc = true → x = none → m.free = []

theorem walkpgdir_walks (h : Tables m d) (hva : va < 4294967296) (alloc : Bool) :
    Ends L (fun _ _ => False) (walkpgdir d va alloc) (fun x m' => Walked m m' d va alloc x) m := by
  have hv : va / PGSIZE < 1048576 := by
    unfold PGSIZE
    omega
  have hk : va / PGSIZE / 1024 < 1024 := by omega
  have hinv := h.inv (.nothing m d)
  have hslot : ∀ {m' S'}, Rep (fun _ => False) m' d S' →
      m'.slot d (va / PGSIZE) = (S'.tab (va / PGSIZE / 1024)).map fun t => (t, va / PGSIZE % 1024) :=
    fun hrep => by
      unfold Mem.slot
      rw [hrep.table_eq hk]
  rw [walkpgdir_page]
  cases alloc with
  | false =>
    refine walkpgdir_ends hinv.rep hv (fun ht => ?_) fun t ht => ?_
    · refine ⟨?_, fun _ _ => rfl, h, fun _ => rfl, nofun⟩
      rw [hslot hinv.rep, ht]
      rfl
    · refine ⟨?_, fun _ _ => rfl, h, fun _ => rfl, nofun⟩
      rw [hslot hinv.rep, ht]
      rfl
  | true =>
    refine walkpgdir_alloc_ends h.pages_lt hinv hv (fun ht hfree => ?_)
      fun t m' h' _ => ?_
    · refine ⟨?_, fun _ _ => rfl, h, fun _ => rfl, fun _ _ => hfree⟩
      rw [hslot hinv.rep, ht]
      rfl
    · refine ⟨?_, fun v hv => ?_, .of_inv h.pages_lt h', nofun, nofun⟩
      · rw [hslot h'.rep, Space.setTab_self]
        rfl
      · rw [translate_eq h' hv, translate_eq hinv hv, Space.setTab_pte]

/-! ## `mappages` -/

theorem covers_iff {v : ℕ} (hsize : 0 < size) :
    Covers va size v ↔ va / PGSIZE ≤ v ∧ v ≤ (va + size - 1) / PGSIZE := by
  unfold Covers PGSIZE
  constructor
  · rintro ⟨a, hlo, hhi, rfl⟩
    omega
  · rintro ⟨hlo, hhi⟩
    by_cases hv : va / 4096 = v
    · exact ⟨va, le_rfl, by omega, hv⟩
    · exact ⟨v * 4096, by omega, by omega, by omega⟩

/-- How `mappages` can end. -/
def MapsOrStops (m : Mem) (d va size pa flags : ℕ) : Bool ⊕ String → Mem → Prop
  | .inl true, m' => (m.translate d).Entered (m'.translate d) va size pa flags ∧ Tables m' d
  | .inl false, m' => m'.free = [] ∧ Tables m' d ∧
    ∀ v < 1048576, ¬ Covers va size v → m'.translate d v = m.translate d v
  | .inr why, _ => why = "remap" ∧ ∃ v, Covers va size v ∧ m.translate d v ≠ none

theorem mappages_maps (h : Tables m d) (hsize : 0 < size) (hend : va + size ≤ 4294967296)
    (hpa : pa % PGSIZE = 0) (hlt : pa < 4294967296) (hperm : perm < 4096) :
    Ends L (fun why m' => MapsOrStops m d va size pa (perm ||| PTE_P) (.inr why) m')
      (mappages d va size pa perm)
      (fun r m' => MapsOrStops m d va size pa (perm ||| PTE_P) (.inl r) m') m := by
  have hinv := h.inv (.nothing m d)
  have hcovers : ∀ v, Covers va size v ↔ va / PGSIZE ≤ v ∧ v ≤ (va + size - 1) / PGSIZE := fun v =>
    covers_iff hsize
  -- the pages are those from `v` to `v + n`
  obtain ⟨n, hn⟩ : ∃ n, (va + size - 1) / PGSIZE = va / PGSIZE + n :=
    Nat.exists_eq_add_of_le (Nat.div_le_div_right (by omega))
  have hlast : PGROUNDDOWN (uintOf ((va : ℤ) + size - 1)) = (va / PGSIZE + n) * PGSIZE := by
    rw [← hn]
    unfold PGROUNDDOWN
    congr 2
    unfold uintOf
    omega
  have hq : pa = pa / PGSIZE % 1048576 * PGSIZE := by
    unfold PGSIZE at *
    omega
  have hv : va / PGSIZE + n < 1048576 := by
    rw [← hn]
    unfold PGSIZE
    omega
  rw [hn] at hcovers
  have hold : ∀ j ≤ n + 1, ∀ m' S', Inv (Tables.Pages (fun _ => False) m d) (fun _ => False) m' d S' none →
      ((m.space d).map (va / PGSIZE) j (pa / PGSIZE) perm).Extends S' →
      ∀ v < 1048576, ¬ Covers va size v → m'.translate d v = m.translate d v := by
    intro j hj m' S' h' hext v hv hnot
    rw [translate_eq h' hv, hext.pte, translate_eq hinv hv]
    rw [hcovers] at hnot
    exact congrArg translation (if_neg (by omega))
  have hloop : mappages d va size pa perm = mappagesFrom d ((va / PGSIZE + n) * PGSIZE) perm 1048576
      (va / PGSIZE * PGSIZE) (pa / PGSIZE % 1048576 * PGSIZE) := by
    unfold mappages
    rw [hlast, ← hq]
    rfl
  rw [hloop]
  refine mappagesFrom_ends hperm h.pages_lt n ((Nat.le_add_left _ _).trans_lt hv) hinv hv
    (fun _ _ _ => id)
    (fun m' u hu hu' hp => ⟨rfl, u, (hcovers u).2 ⟨hu, hu'⟩, ?_⟩)
    (fun m' S' j hfree hj h' _ hext => ⟨hfree, .of_inv h.pages_lt h', hold j (by omega) m' S' h' hext⟩)
    fun m' S' hfresh h' _ hext => ⟨⟨fun u hu => ?_, fun u hu => ?_, hold _ le_rfl m' S' h' hext⟩,
      .of_inv h.pages_lt h'⟩
  · rw [translate_eq hinv (by omega), Ne, translation_eq_none]
    exact not_not_intro hp
  · rw [hcovers] at hu
    rw [translate_eq hinv (by omega), translation_eq_none]
    exact hfresh u hu.1 hu.2
  · rw [hcovers] at hu
    rw [translate_eq h' (by omega), hext.pte, ← translation_entry _ hperm]
    exact congrArg translation (if_pos (by omega))

/-- On the map of a page directory, `walkpgdir` finds the entry of a page and `mappages` enters the
pages of a range. -/
theorem mappages_refines (h : Tables m d) (hsize : 0 < size) (hend : va + size ≤ 4294967296)
    (hpa : pa % PGSIZE = 0) (hlt : pa < 4294967296) (hperm : perm < 4096) :
    (∀ alloc, ∃ x m', (walkpgdir d va alloc).exec (Op.perform L) m = some (.inl x, m') ∧
      Walked m m' d va alloc x) ∧
    ∃ r m', (mappages d va size pa perm).exec (Op.perform L) m = some (r, m') ∧
      MapsOrStops m d va size pa (perm ||| PTE_P) r m' := by
  refine ⟨fun alloc => ?_, ?_⟩
  · have hwalk := walkpgdir_walks (L := L) h (show va < 4294967296 by omega) alloc
    obtain hends | ⟨why, m', -, hfalse⟩ := Task.Wp.exec (fun _ => rfl) hwalk
    · exact hends
    · exact hfalse.elim
  · have hmaps := mappages_maps (L := L) h hsize hend hpa hlt hperm
    obtain ⟨r, m', hexec, hr⟩ | ⟨why, m', hexec, hwhy⟩ := Task.Wp.exec (fun _ => rfl) hmaps
    · exact ⟨.inl r, m', hexec, hr⟩
    · exact ⟨.inr why, m', hexec, hwhy⟩

theorem onePage_tables : Tables onePage 300 where
  distinct _ _ ht ht' := (onePage_table ht).1.trans (onePage_table ht').1.symm
  ne_dir _ ht := by
    rw [(onePage_table ht).2]
    decide
  not_free _ ht := by
    rw [(onePage_table ht).2]
    decide
  dir_lt := by decide
  dir_not_free := by decide
  free_lt hin := (onePage_usable (List.mem_append_right [300, 301, 302] hin)).lt
  nodup := by decide

theorem mappages_refines_onePage :
    (∀ alloc, ∃ x m', (walkpgdir 300 4294963199 alloc).exec (Op.perform someLayout) onePage =
        some (.inl x, m') ∧ Walked onePage m' 300 4294963199 alloc x) ∧
    ∃ r m', (mappages 300 4294963199 4097 20480 PTE_W).exec (Op.perform someLayout) onePage =
        some (r, m') ∧
      MapsOrStops onePage 300 4294963199 4097 20480 (PTE_W ||| PTE_P) r m' :=
  mappages_refines onePage_tables (by decide) (by decide) (by decide) (by decide) (by decide)

end Xv6.Vm
