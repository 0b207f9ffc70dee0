import Xv6.Vm.Free

/-!
# The kernel part of an address space

`setupkvm` maps the ranges of `kmap`, which are apart from each other and above `KERNBASE`; the
entries are those of `kernelPte`, whatever memory is like. If it fails, all that it allocated is free
again.
-/

namespace Xv6.Vm

variable {L : Layout} {T U : ℕ → Prop} {m : Mem} {d v : ℕ} {S : Space}
  {D : String → Mem → Prop}

namespace Kmap

/-- The first virtual page. -/
def first (k : Kmap) : ℕ := k.virt / PGSIZE

/-- The number of pages. -/
def pages (k : Kmap) : ℕ := uintOf ((k.phys_end : ℤ) - k.phys_start) / PGSIZE

def Covers (k : Kmap) (v : ℕ) : Prop := k.first ≤ v ∧ v < k.first + k.pages

instance (k : Kmap) (v : ℕ) : Decidable (k.Covers v) :=
  inferInstanceAs (Decidable (k.first ≤ v ∧ v < k.first + k.pages))

def pte (k : Kmap) (v : ℕ) : ℕ := entry (k.phys_start / PGSIZE + (v - k.first)) k.perm

/-- A range of whole pages above `KERNBASE`, which does not pass the end of the address space. -/
structure Good (k : Kmap) : Prop where
  virt : k.virt = k.first * PGSIZE
  phys : k.phys_start = k.phys_start / PGSIZE % 1048576 * PGSIZE
  size : uintOf ((k.phys_end : ℤ) - k.phys_start) = k.pages * PGSIZE
  pos : 0 < k.pages
  low : 524288 ≤ k.first
  high : k.first + k.pages ≤ 1048576
  perm : k.perm < 4096

/-- No page in common. -/
def Apart (k l : Kmap) : Prop := ∀ v, k.Covers v → ¬ l.Covers v

end Kmap

def kernelPte? (ks : List Kmap) (v : ℕ) : Option ℕ :=
  (ks.find? fun k => decide (k.Covers v)).map fun k => k.pte v

def kernelPte (L : Layout) (v : ℕ) : ℕ := (kernelPte? (kmap L) v).getD 0

theorem kernelPte?_cons_of_covers {k : Kmap} {ks : List Kmap} (h : k.Covers v) :
    kernelPte? (k :: ks) v = some (k.pte v) := by
  have hfind : (k :: ks).find? (fun k => decide (k.Covers v)) = some k :=
    List.find?_cons_of_pos (decide_eq_true h)
  unfold kernelPte?
  rw [hfind]
  rfl

theorem kernelPte?_cons_of_not {k : Kmap} {ks : List Kmap} (h : ¬ k.Covers v) :
    kernelPte? (k :: ks) v = kernelPte? ks v := by
  unfold kernelPte?
  rw [List.find?_cons_of_neg (by rw [decide_eq_true_iff]; exact h)]

theorem kernelPte?_eq_none {ks : List Kmap} (h : ∀ k ∈ ks, ¬ k.Covers v) :
    kernelPte? ks v = none := by
  unfold kernelPte?
  rw [List.find?_eq_none.2 fun k hk => by rw [decide_eq_true_iff]; exact h k hk]
  rfl

theorem Kmap.good_of {k : Kmap} {q n : ℕ} (hvirt : k.virt = v * PGSIZE)
    (hphys : k.phys_start = q * PGSIZE)
    (hsize : uintOf ((k.phys_end : ℤ) - k.phys_start) = n * PGSIZE) (hq : q < 1048576) (hpos : 0 < n)
    (hlow : 524288 ≤ v) (hhigh : v + n ≤ 1048576) (hperm : k.perm < 4096) :
    k.Good ∧ k.first = v ∧ k.pages = n := by
  have hdiv : ∀ x, x * PGSIZE / PGSIZE = x := fun x => Nat.mul_div_cancel x (by decide)
  have hfirst : k.first = v := by rw [Kmap.first, hvirt, hdiv]
  have hpages : k.pages = n := by rw [Kmap.pages, hsize, hdiv]
  refine ⟨⟨?_, ?_, ?_, ?_, ?_, ?_, hperm⟩, hfirst, hpages⟩
  · rw [hfirst, hvirt]
  · rw [hphys, hdiv, Nat.mod_eq_of_lt hq]
  · rw [hpages, hsize]
  · rw [hpages]
    exact hpos
  · rw [hfirst]
    exact hlow
  · rw [hfirst, hpages]
    exact hhigh

theorem uintOf_sub {x y : ℕ} (hle : y ≤ x) (hlt : x < 4294967296) :
    uintOf ((x : ℤ) - y) = x - y := by
  unfold uintOf
  omega

theorem kmap_ranges (L : Layout) : ∃ n k₁ k₂ k₃ k₄, 256 < n ∧ n < 57344 ∧
    kmap L = [k₁, k₂, k₃, k₄] ∧ (k₁.Good ∧ k₁.first = 524288 ∧ k₁.pages = 256) ∧
    (k₂.Good ∧ k₂.first = 524544 ∧ k₂.pages = n - 256) ∧
    (k₃.Good ∧ k₃.first = 524288 + n ∧ k₃.pages = 57344 - n) ∧
    (k₄.Good ∧ k₄.first = 1040384 ∧ k₄.pages = 8192) := by
  obtain ⟨n, hn⟩ : ∃ n, L.data = n * PGSIZE :=
    ⟨L.data / PGSIZE, (Nat.div_mul_cancel (Nat.dvd_of_mod_eq_zero L.data_aligned)).symm⟩
  have hlow := L.extmem_lt
  have hhigh := L.data_lt.trans_le L.kend_le
  rw [hn] at hlow hhigh
  unfold EXTMEM PGSIZE at hlow
  unfold PHYSTOP PGSIZE at hhigh
  refine ⟨n, _, _, _, _, by omega, by omega, rfl, Kmap.good_of (q := 0) rfl rfl ?_ ?_ ?_ ?_ ?_ ?_,
    Kmap.good_of (q := 256) rfl rfl ?_ ?_ ?_ ?_ ?_ ?_, Kmap.good_of (q := n) ?_ hn ?_ ?_ ?_ ?_ ?_ ?_,
    Kmap.good_of (q := 1040384) rfl rfl ?_ ?_ ?_ ?_ ?_ ?_⟩
  · exact uintOf_sub (Nat.zero_le _) (by decide)
  · decide
  · decide
  · decide
  · decide
  · decide
  · rw [uintOf_sub L.extmem_lt.le (by rw [hn]; unfold PGSIZE; omega), hn, Nat.sub_mul]
    rfl
  · decide
  · omega
  · decide
  · omega
  · exact Nat.zero_lt_succ 4095
  · rw [hn, Nat.add_mul]
    rfl
  · rw [uintOf_sub (L.data_lt.le.trans L.kend_le) (by decide), hn, Nat.sub_mul]
    rfl
  · omega
  · omega
  · omega
  · omega
  · show PTE_W < 4096
    decide
  · rfl
  · decide
  · decide
  · decide
  · decide
  · decide

theorem kmap_good (L : Layout) : ∀ k ∈ kmap L, k.Good := by
  obtain ⟨n, k₁, k₂, k₃, k₄, -, -, hkmap, ⟨h₁, -⟩, ⟨h₂, -⟩, ⟨h₃, -⟩, ⟨h₄, -⟩⟩ := kmap_ranges L
  intro k hk
  rw [hkmap] at hk
  simp only [List.mem_cons, List.not_mem_nil, or_false] at hk
  rcases hk with rfl | rfl | rfl | rfl
  · exact h₁
  · exact h₂
  · exact h₃
  · exact h₄

theorem kernelPte_gap (L : Layout) (hv : v < 524288 ∨ 581632 ≤ v ∧ v < 1040384 ∨ 1048576 ≤ v) :
    kernelPte L v = 0 := by
  obtain ⟨n, k₁, k₂, k₃, k₄, hlow, hhigh, hkmap, ⟨-, hf₁, hp₁⟩, ⟨-, hf₂, hp₂⟩, ⟨-, hf₃, hp₃⟩,
    ⟨-, hf₄, hp₄⟩⟩ := kmap_ranges L
  have hnone : kernelPte? (kmap L) v = none := by
    refine kernelPte?_eq_none fun k hk hcovers => ?_
    rw [hkmap] at hk
    simp only [List.mem_cons, List.not_mem_nil, or_false] at hk
    unfold Kmap.Covers at hcovers
    rcases hk with rfl | rfl | rfl | rfl <;> omega
  unfold kernelPte
  rw [hnone]
  rfl

theorem kernelPte_user (L : Layout) (hv : UserPage v) : kernelPte L v = 0 := kernelPte_gap L (.inl hv)

theorem kernelPte_not_user (L : Layout) (v : ℕ) : ¬ User (kernelPte L v) := by
  have hentry : ∀ q perm, perm = 0 ∨ perm = PTE_W → ¬ User (entry q perm) := by
    intro q perm hperm
    have hlt : perm < 4096 := by
      rcases hperm with rfl | rfl <;> decide
    unfold entry User
    rw [entry_eq _ hlt]
    unfold PGSIZE
    rcases hperm with rfl | rfl
    · show ¬ (q % 1048576 * 4096 + 1) / 4 % 2 = 1
      omega
    · show ¬ (q % 1048576 * 4096 + 3) / 4 % 2 = 1
      omega
  have hperm : ∀ k ∈ kmap L, k.perm = 0 ∨ k.perm = PTE_W := by
    simp [kmap]
  unfold kernelPte kernelPte?
  cases hfind : (kmap L).find? fun k => decide (k.Covers v) with
  | none => exact (by decide : ¬ User 0)
  | some k => exact hentry _ _ (hperm k (List.mem_of_find?_eq_some hfind))

theorem kernelPte_lt (L : Layout) (v : ℕ) : kernelPte L v < 4294967296 := by
  unfold kernelPte kernelPte?
  cases hfind : (kmap L).find? fun k => decide (k.Covers v) with
  | none => exact (by decide : 0 < 4294967296)
  | some k => exact entry_lt _ (kmap_good L k (List.mem_of_find?_eq_some hfind)).perm

theorem kernelPte_present (L : Layout)
    (hv : 524288 ≤ v ∧ v < 581632 ∨ 1040384 ≤ v ∧ v < 1048576) : Present (kernelPte L v) := by
  obtain ⟨n, k₁, k₂, k₃, k₄, hlow, hhigh, hkmap, ⟨-, hf₁, hp₁⟩, ⟨-, hf₂, hp₂⟩, ⟨-, hf₃, hp₃⟩,
    ⟨-, hf₄, hp₄⟩⟩ := kmap_ranges L
  have hcovers : ∃ k ∈ kmap L, k.Covers v := by
    rw [hkmap]
    simp only [List.mem_cons, List.not_mem_nil, or_false, exists_eq_or_imp, exists_eq_left,
      Kmap.Covers]
    omega
  unfold kernelPte kernelPte?
  cases hfind : (kmap L).find? fun k => decide (k.Covers v) with
  | none =>
    obtain ⟨k, hk, hcovers⟩ := hcovers
    exact absurd hcovers (of_decide_eq_false (by simpa using List.find?_eq_none.1 hfind k hk))
  | some k => exact entry_present _ (kmap_good L k (List.mem_of_find?_eq_some hfind)).perm

theorem kmap_apart (L : Layout) : (kmap L).Pairwise Kmap.Apart := by
  obtain ⟨n, k₁, k₂, k₃, k₄, hlow, hhigh, hkmap, ⟨-, hf₁, hp₁⟩, ⟨-, hf₂, hp₂⟩, ⟨-, hf₃, hp₃⟩,
    ⟨-, hf₄, hp₄⟩⟩ := kmap_ranges L
  rw [hkmap]
  simp only [List.pairwise_cons, List.mem_cons, List.not_mem_nil, or_false, forall_eq_or_imp,
    forall_eq, Kmap.Apart, Kmap.Covers, hf₁, hp₁, hf₂, hp₂, hf₃, hp₃, hf₄, hp₄, false_imp_iff,
    implies_true, List.Pairwise.nil, and_true]
  refine ⟨⟨?_, ?_, ?_⟩, ⟨?_, ?_⟩, ?_⟩
  all_goals
    intro v
    omega

def Space.Tidy (S : Space) : Prop :=
  ∀ k t, S.tab k = some t → ∃ v, v / 1024 = k ∧ Present (S.pte v)

theorem mappages_kmap_ends {Q : Bool → Mem → Prop} {k : Kmap} (hk : k.Good)
    (hT : ∀ {pn}, T pn → pn < 1048576) (h : Inv T U m d S none) (hU : ∀ u, U u → UserPage u)
    (hfresh : ∀ v, k.Covers v → ¬ Present (S.pte v))
    (hfalse : ∀ m' S', m'.free = [] → Inv T U m' d S' none → Keeps T m m' →
      (∀ u, UserPage u → S'.pte u = S.pte u) → Q false m')
    (htrue : ∀ m' S', Inv T U m' d S' none → Keeps T m m' → (S.Tidy → S'.Tidy) →
      (∀ v, S'.pte v = if k.Covers v then k.pte v else S.pte v) → Q true m') :
    Ends L D (mappages d k.virt (uintOf ((k.phys_end : ℤ) - k.phys_start)) k.phys_start k.perm) Q
      m := by
  obtain ⟨hvirt, hphys, hsize, hpos, hlow, hhigh, hperm⟩ := hk
  obtain ⟨n, hn⟩ : ∃ n, k.pages = n + 1 := ⟨k.pages - 1, by omega⟩
  have hlast : PGROUNDDOWN (uintOf ((k.virt : ℤ) + (k.pages * PGSIZE : ℕ) - 1)) =
      (k.first + n) * PGSIZE := by
    rw [hvirt, hn]
    unfold PGROUNDDOWN uintOf PGSIZE
    omega
  have ha : PGROUNDDOWN k.virt = k.first * PGSIZE := by
    rw [hvirt]
    unfold PGROUNDDOWN PGSIZE
    omega
  unfold mappages
  rw [hsize, hlast, ha, hphys]
  refine mappagesFrom_ends hperm hT n (by omega) h (by omega) (fun u hu _ hx => ?_)
    (fun m' u hu hu' hp => ?_) (fun m' S' j hfree _ h' hkeeps hext => ?_)
    fun m' S' _ h' hkeeps hext => ?_
  · have := hU u hx
    unfold UserPage at this
    omega
  · exact absurd hp (hfresh u ⟨hu, by omega⟩)
  · refine hfalse m' S' hfree h' hkeeps fun u hu => ?_
    unfold UserPage at hu
    rw [hext.pte]
    exact if_neg (by omega)
  · refine htrue m' S' h' hkeeps (fun htidy l t ht => ?_) fun v => ?_
    · rcases hext.new ht with hold | hin
      · obtain ⟨u, hu, hp⟩ := htidy l t hold
        rw [hext.pte]
        exact ⟨u, hu, Space.present_map hperm hp⟩
      · exact hin
    have hcovers : k.Covers v ↔ k.first ≤ v ∧ v < k.first + (n + 1) := by
      unfold Kmap.Covers
      rw [hn]
    rw [hext.pte, if_congr hcovers rfl rfl]
    rfl

theorem setupkvmFrom_ends {Q : Option ℕ → Mem → Prop} {ks : List Kmap} (hks : ∀ k ∈ ks, k.Good)
    (hapart : ks.Pairwise Kmap.Apart) (hL : ∀ {pn}, T pn → L.Usable pn) (h : Inv T U m d S none)
    (hU : ∀ u, U u ↔ UserPage u)
    (hfresh : ∀ k ∈ ks, ∀ v, k.Covers v → ¬ Present (S.pte v))
    (huser : ∀ u, UserPage u → ¬ Present (S.pte u)) (htidy : S.Tidy)
    (hnone : ∀ m', AllFree T m' → Keeps T m m' → AtMost T 1026 → Q none m')
    (hsome : ∀ m' S', Inv T U m' d S' none → Keeps T m m' → S'.Tidy →
      (∀ v, S'.pte v = (kernelPte? ks v).getD (S.pte v)) → Q (some d) m') :
    Ends L D (setupkvmFrom d ks) Q m := by
  induction ks generalizing m S with
  | nil => exact hsome m S h (.refl m) htidy fun v => rfl
  | cons k ks ih =>
    unfold setupkvmFrom
    rw [List.pairwise_cons] at hapart
    refine Task.wp_bind.2 (mappages_kmap_ends (hks k List.mem_cons_self) (fun hT => (hL hT).lt) h
      (fun u => (hU u).1)
      (hfresh k List.mem_cons_self) (fun m' S' hfree h' hkeeps hpte => ?_)
      fun m' S' h' hkeeps htidy' hpte => ?_)
    · rw [if_neg (by decide)]
      have hshort : AtMost T 1026 := by
        refine h'.atMost (n := 0) hfree fun u hu hp => ?_
        rw [hpte u ((hU u).1 hu)] at hp
        exact absurd hp (huser u ((hU u).1 hu))
      refine Task.wp_bind.2 (freevm_ends hU hL h' fun m'' hall hkeeps' => ?_)
      exact hnone m'' hall (hkeeps.trans hkeeps') hshort
    · rw [if_pos rfl]
      refine ih (fun l hl => hks l (List.mem_cons_of_mem _ hl)) hapart.2 h' (fun l hl v hv => ?_)
        (fun u hu => ?_) (htidy' htidy)
        (fun m'' hall hkeeps' => hnone m'' hall (hkeeps.trans hkeeps'))
        fun m'' S'' h'' hkeeps' ht hpte' => hsome m'' S'' h'' (hkeeps.trans hkeeps') ht fun v => ?_
      · rw [hpte v, if_neg fun hk => hapart.1 l hl v hk hv]
        exact hfresh l (List.mem_cons_of_mem _ hl) v hv
      · have hlow := (hks k List.mem_cons_self).low
        unfold UserPage at hu
        rw [hpte u, if_neg fun hk => absurd hk.1 (by omega)]
        exact huser u hu
      · rw [hpte', hpte]
        by_cases hk : k.Covers v
        · rw [if_pos hk, kernelPte?_cons_of_covers hk,
            kernelPte?_eq_none fun l hl => hapart.1 l hl v hk]
          rfl
        · rw [if_neg hk, kernelPte?_cons_of_not hk]

theorem AllFree.start {free : List ℕ} (h : AllFree T m)
    (hfree : m.free = d :: free) :
    Inv T U (Mem.setPage { m with free := free } d fun _ => 0#8) d .empty none := by
  have hnodup := h.nodup
  rw [hfree, List.nodup_cons] at hnodup
  have hmem : ∀ pn, T pn ↔ pn = d ∨ pn ∈ free := by
    intro pn
    rw [← h.mem, hfree, List.mem_cons]
  refine ⟨⟨fun {k} _ _ => ?_, nofun, nofun, fun _ _ _ => rfl, fun {v} _ hp => ?_⟩, nofun, ⟨?_, ?_, ?_⟩,
    hnodup.2⟩
  · rw [Mem.setPage_self]
    show ¬ Present (Bytes.zero.word k)
    rw [Bytes.word_zero]
    nofun
  · cases hp
  · intro o pn ho
    cases o with
    | free => exact (hmem pn).2 (.inr ho)
    | hand => cases ho
    | dir => exact (hmem pn).2 (.inl ho)
    | tab k => exact nomatch ho.2
    | page u => exact nomatch ho.2.1
  · intro o o' pn ho ho'
    cases o with
    | free =>
      cases o' with
      | free => rfl
      | hand => cases ho'
      | dir => exact absurd ((show pn = d from ho') ▸ ho) hnodup.1
      | tab k => exact nomatch ho'.2
      | page u => exact nomatch ho'.2.1
    | hand => cases ho
    | dir =>
      cases o' with
      | free => exact absurd ((show pn = d from ho) ▸ ho') hnodup.1
      | hand => cases ho'
      | dir => rfl
      | tab k => exact nomatch ho'.2
      | page u => exact nomatch ho'.2.1
    | tab k => exact nomatch ho.2
    | page u => exact nomatch ho.2.1
  · intro pn hT
    rcases (hmem pn).1 hT with rfl | hin
    · exact ⟨.dir, rfl⟩
    · exact ⟨.free, hin⟩

theorem setupkvm_ends {Q : Option ℕ → Mem → Prop} (h : AllFree T m)
    (hL : ∀ {pn}, T pn → L.Usable pn) (hU : ∀ u, U u ↔ UserPage u)
    (hnone : ∀ m', AllFree T m' → Keeps T m m' → AtMost T 1026 → Q none m')
    (hsome : ∀ d m' S, Inv T U m' d S none → Keeps T m m' → S.Tidy →
      (∀ v, S.pte v = kernelPte L v) → Q (some d) m') : Ends L D (setupkvm L) Q m := by
  unfold setupkvm
  refine Task.wp_bind.2 (kalloc_ends (fun hfree => hnone m h (.refl m) fun l _ hl => ?_)
    fun d free hfree => ?_)
  · cases l with
    | nil => exact Nat.zero_le _
    | cons pn l =>
      have hin := (h.mem pn).2 (hl pn List.mem_cons_self)
      rw [hfree] at hin
      cases hin
  have hT : T d := by
    rw [← h.mem, hfree]
    exact List.mem_cons_self
  refine Task.wp_bind.2 (memset_ends (Task.wp_bind.2 ?_))
  have hstart : Keeps T m (Mem.setPage { m with free := free } d fun _ => 0#8) :=
    keeps_setPage (m := { m with free := free }) hT
  refine panicUnless_ends (fun hx => absurd (by decide) hx) fun _ => ?_
  refine setupkvmFrom_ends (kmap_good L) (kmap_apart L) hL (h.start hfree) hU
    (fun k _ v _ hp => nomatch hp) (fun u _ hp => nomatch hp) (fun _ _ ht => nomatch ht)
    (fun m' hall hkeeps => hnone m' hall (hstart.trans hkeeps))
    fun m' S h' hkeeps htidy hpte => hsome d m' S h' (hstart.trans hkeeps) htidy hpte

end Xv6.Vm
