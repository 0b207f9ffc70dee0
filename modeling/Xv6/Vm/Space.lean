import Xv6.Lib.Ledger
import Xv6.Lib.Wp
import Xv6.Vm.Machine
import Mathlib.Data.List.Perm.Subperm

/-!
# Address spaces

What a page directory in memory stands for: the page tables, the entry of every virtual page, and the
bytes of the pages that the entries own (`Space`, `Rep`). A set of pages is accounted for by a ledger
(`Inv`): each of them is on the free list, is in the hand of the running function, is the page
directory or one of the page tables, or is the page of one virtual page. The set is a parameter and
does not change: what is allocated comes from the free list, and what is freed goes back to it. Which
virtual pages own their physical page is a parameter too; they are those of the user part.

The lemmas here say, for each change that the functions of `vm.c` make to memory, what becomes of the
address space. `Keeps` says that no other page has changed.
-/

namespace Xv6.Vm

open Function

def UserPage (v : ℕ) : Prop := v < 524288

theorem UserPage.lt {v : ℕ} (h : UserPage v) : v < 1048576 := Nat.lt_trans h (by decide)

/-- An address space: page tables by page directory index, entries by virtual page, and the bytes of
the pages. -/
@[ext]
structure Space where
  tab : ℕ → Option ℕ
  pte : ℕ → ℕ
  data : ℕ → Bytes

namespace Space

/-- With nothing in it. -/
def empty : Space := ⟨fun _ => none, fun _ => 0, fun _ => .zero⟩

/-- With a new page table. -/
def setTab (S : Space) (k pn : ℕ) : Space := { S with tab := update S.tab k (some pn) }

def put (S : Space) (v w : ℕ) (b : Bytes) : Space :=
  { S with pte := update S.pte v w, data := update S.data v b }

section

variable (S : Space) (k pn v w : ℕ) (b : Bytes)

@[simp] theorem setTab_pte : (S.setTab k pn).pte = S.pte := rfl

@[simp] theorem setTab_self : (S.setTab k pn).tab k = some pn := update_self ..

@[simp] theorem put_pte_self : (S.put v w b).pte v = w := update_self ..

@[simp] theorem put_data_self : (S.put v w b).data v = b := update_self ..

variable {k v}

theorem setTab_eq_self (h : S.tab k = some pn) : S.setTab k pn = S := by
  unfold setTab
  rw [← h, update_eq_self]

theorem setTab_of_ne {l : ℕ} (h : l ≠ k) : (S.setTab k pn).tab l = S.tab l :=
  update_of_ne h ..

theorem put_pte_of_ne {u : ℕ} (h : u ≠ v) : (S.put v w b).pte u = S.pte u :=
  update_of_ne h ..

theorem put_data_of_ne {u : ℕ} (h : u ≠ v) : (S.put v w b).data u = S.data u :=
  update_of_ne h ..

end

end Space

/-! ## Entries -/

theorem lor_eq_add (pn : ℕ) {x : ℕ} (hx : x < 4096) : pn * PGSIZE ||| x = pn * PGSIZE + x := by
  have h := Nat.two_pow_add_eq_or_of_lt (i := 12) hx pn
  rw [Nat.mul_comm] at h
  exact h.symm

theorem lt_of_lor {x y : ℕ} (hx : x < 4096) (hy : y < 4096) : x ||| y < 4096 :=
  Nat.or_lt_two_pow (n := 12) hx hy

theorem entry_eq (pn : ℕ) {perm : ℕ} (hperm : perm < 4096) :
    pn * PGSIZE ||| perm ||| PTE_P = pn * PGSIZE + (perm ||| 1) := by
  rw [Nat.or_assoc]
  exact lor_eq_add pn (lt_of_lor hperm (by decide))

theorem entry_spec {pn perm : ℕ} (hperm : perm < 4096) (hpn : pn < 1048576) :
    Present (pn * PGSIZE ||| perm ||| PTE_P) ∧ pageOf (pn * PGSIZE ||| perm ||| PTE_P) = pn ∧
      PTE_FLAGS (pn * PGSIZE ||| perm ||| PTE_P) = perm ||| 1 ∧
      pn * PGSIZE ||| perm ||| PTE_P < 4294967296 := by
  rw [entry_eq pn hperm]
  have hlt : perm ||| 1 < 4096 := lt_of_lor hperm (by decide)
  have hodd : (perm ||| 1) % 2 = 1 := by
    rw [← Nat.and_one_is_mod, Nat.and_or_distrib_right, Nat.and_one_is_mod]
    rcases Nat.mod_two_eq_zero_or_one perm with h0 | h1
    · rw [h0]
      rfl
    · rw [h1]
      rfl
  unfold Present pageOf PTE_FLAGS PGSIZE
  omega

theorem pde_spec {pn : ℕ} (hpn : pn < 1048576) :
    Present (pn * PGSIZE ||| PTE_P ||| PTE_W ||| PTE_U) ∧
      pageOf (pn * PGSIZE ||| PTE_P ||| PTE_W ||| PTE_U) = pn ∧
      pn * PGSIZE ||| PTE_P ||| PTE_W ||| PTE_U < 4294967296 := by
  have heq : pn * PGSIZE ||| PTE_P ||| PTE_W ||| PTE_U = pn * PGSIZE + 7 := by
    rw [Nat.or_assoc, Nat.or_assoc]
    exact lor_eq_add pn (by decide)
  rw [heq]
  unfold Present pageOf PGSIZE
  omega

theorem Layout.Usable.bounds {L : Layout} {pn : ℕ} (h : L.Usable pn) : 0 < pn ∧ pn < 57344 := by
  obtain ⟨hlow, hhigh⟩ := h
  have h1 := L.extmem_lt
  have h2 := L.data_lt
  unfold PHYSTOP PGSIZE EXTMEM at *
  omega

theorem Layout.Usable.lt {L : Layout} {pn : ℕ} (h : L.Usable pn) : pn < 1048576 :=
  h.bounds.2.trans (by decide)

theorem index_of (v : ℕ) : 1024 * (v / 1024) + v % 1024 = v := Nat.div_add_mod v 1024

theorem index_div {k j : ℕ} (hj : j < 1024) : (1024 * k + j) / 1024 = k := by omega

theorem index_mod {k j : ℕ} (hj : j < 1024) : (1024 * k + j) % 1024 = j := by omega

/-! ## What memory stands for -/

section

variable (T U : ℕ → Prop)

/-- The page directory `d` in memory stands for `S`. -/
structure Rep (m : Mem) (d : ℕ) (S : Space) : Prop where
  absent : ∀ {k}, k < 1024 → S.tab k = none → ¬ Present ((m.page d).word k)
  pde : ∀ {k t}, k < 1024 → S.tab k = some t →
    Present ((m.page d).word k) ∧ pageOf ((m.page d).word k) = t
  pte : ∀ {k t j}, k < 1024 → S.tab k = some t → j < 1024 →
    (m.page t).word j = S.pte (1024 * k + j)
  zero : ∀ {k j}, k < 1024 → S.tab k = none → j < 1024 → S.pte (1024 * k + j) = 0
  data : ∀ {v}, U v → Present (S.pte v) → m.page (pageOf (S.pte v)) = S.data v

/-- Who has a page. -/
inductive Owner
  | free
  | hand
  | dir
  | tab (k : ℕ)
  | page (v : ℕ)

def Owns (m : Mem) (d : ℕ) (S : Space) (hand : Option (ℕ × Bytes)) : Owner → ℕ → Prop
  | .free, pn => pn ∈ m.free
  | .hand, pn => hand.map Prod.fst = some pn
  | .dir, pn => pn = d
  | .tab k, pn => k < 1024 ∧ S.tab k = some pn
  | .page v, pn => U v ∧ Present (S.pte v) ∧ pageOf (S.pte v) = pn

/-- The pages of `T` are accounted for, with the address space of `d`. -/
structure Inv (m : Mem) (d : ℕ) (S : Space) (hand : Option (ℕ × Bytes)) : Prop where
  rep : Rep U m d S
  held : ∀ {pn b}, hand = some (pn, b) → m.page pn = b
  ledger : Ledger T (Owns U m d S hand)
  nodup : m.free.Nodup

def Keeps (m m' : Mem) : Prop := ∀ pn, ¬ T pn → m'.page pn = m.page pn

end

variable {T U : ℕ → Prop} {m m' m'' : Mem} {d pn : ℕ} {S : Space}
  {hand : Option (ℕ × Bytes)} {b : Bytes}

theorem Keeps.refl (m : Mem) : Keeps T m m := fun _ _ => rfl

theorem Keeps.trans (h : Keeps T m m') (h' : Keeps T m' m'') : Keeps T m m'' := fun pn hpn =>
  (h' pn hpn).trans (h pn hpn)

theorem keeps_setPage (h : T pn) : Keeps T m (m.setPage pn b) := by
  intro q hq
  refine update_of_ne ?_ ..
  rintro rfl
  exact hq h

theorem Mem.setPage_self (m : Mem) (pn : ℕ) (b : Bytes) : (m.setPage pn b).page pn = b :=
  update_self ..

theorem Mem.setPage_of_ne {q : ℕ} (m : Mem) (b : Bytes) (h : q ≠ pn) :
    (m.setPage pn b).page q = m.page q := update_of_ne h ..

theorem Rep.congr (h : Rep U m d S) (hdir : m'.page d = m.page d)
    (htab : ∀ k t, k < 1024 → S.tab k = some t → m'.page t = m.page t)
    (hdata : ∀ v, U v → Present (S.pte v) →
      m'.page (pageOf (S.pte v)) = m.page (pageOf (S.pte v))) : Rep U m' d S where
  absent hk ht := by
    rw [hdir]
    exact h.absent hk ht
  pde hk ht := by
    rw [hdir]
    exact h.pde hk ht
  pte hk ht hj := by
    rw [htab _ _ hk ht]
    exact h.pte hk ht hj
  zero := h.zero
  data hv hp := by
    rw [hdata _ hv hp]
    exact h.data hv hp

theorem Rep.put (h : Rep U m d S) {t v w : ℕ} (hv : v < 1048576) (ht : S.tab (v / 1024) = some t)
    (hw : w < 4294967296) (hm : m'.page t = (m.page t).setWord (v % 1024) w)
    (hdir : m'.page d = m.page d)
    (htab : ∀ k t', k < 1024 → S.tab k = some t' → k ≠ v / 1024 → m'.page t' = m.page t')
    (hpage : ∀ u, U u → Present (S.pte u) → u ≠ v →
      m'.page (pageOf (S.pte u)) = m.page (pageOf (S.pte u)))
    (hnew : U v → Present w → m'.page (pageOf w) = b) : Rep U m' d (S.put v w b) where
  absent hk hn := by
    rw [hdir]
    exact h.absent hk hn
  pde hk hs := by
    rw [hdir]
    exact h.pde hk hs
  pte {k t' j} hk hs hj := by
    change S.tab k = some t' at hs
    by_cases hkv : k = v / 1024
    · subst hkv
      cases ht.symm.trans hs
      rw [hm]
      by_cases hjv : j = v % 1024
      · subst hjv
        rw [Bytes.word_setWord_self _ hw, index_of, Space.put_pte_self]
      · rw [Bytes.word_setWord_of_ne _ hjv, h.pte hk hs hj, Space.put_pte_of_ne _ _ _ (by omega)]
    · rw [htab k t' hk hs hkv, h.pte hk hs hj, Space.put_pte_of_ne _ _ _ (by omega)]
  zero {k j} hk hn hj := by
    change S.tab k = none at hn
    have hkv : k ≠ v / 1024 := by
      rintro rfl
      rw [ht] at hn
      cases hn
    rw [Space.put_pte_of_ne _ _ _ (by omega)]
    exact h.zero hk hn hj
  data {u} hu hp := by
    by_cases huv : u = v
    · subst huv
      rw [Space.put_pte_self] at hp ⊢
      rw [Space.put_data_self]
      exact hnew hu hp
    · rw [Space.put_pte_of_ne _ _ _ huv] at hp ⊢
      rw [Space.put_data_of_ne _ _ _ huv, hpage u hu hp huv]
      exact h.data hu hp

theorem Rep.setTab (h : Rep U m d S) {k w : ℕ} (hk : k < 1024) (hnone : S.tab k = none)
    (hw : w < 4294967296) (hp : Present w) (hpn : pageOf w = pn)
    (hdir : m'.page d = (m.page d).setWord k w) (hnew : m'.page pn = .zero)
    (htab : ∀ l t, l < 1024 → S.tab l = some t → m'.page t = m.page t)
    (hpage : ∀ u, U u → Present (S.pte u) →
      m'.page (pageOf (S.pte u)) = m.page (pageOf (S.pte u))) : Rep U m' d (S.setTab k pn) where
  absent {l} hl hn := by
    have hne : l ≠ k := by
      rintro rfl
      rw [Space.setTab_self] at hn
      cases hn
    rw [Space.setTab_of_ne _ _ hne] at hn
    rw [hdir, Bytes.word_setWord_of_ne _ hne]
    exact h.absent hl hn
  pde {l t} hl hs := by
    rw [hdir]
    by_cases hne : l = k
    · subst hne
      rw [Space.setTab_self] at hs
      cases hs
      rw [Bytes.word_setWord_self _ hw]
      exact ⟨hp, hpn⟩
    · rw [Space.setTab_of_ne _ _ hne] at hs
      rw [Bytes.word_setWord_of_ne _ hne]
      exact h.pde hl hs
  pte {l t j} hl hs hj := by
    by_cases hne : l = k
    · subst hne
      rw [Space.setTab_self] at hs
      cases hs
      rw [hnew, Bytes.word_zero, Space.setTab_pte, h.zero hk hnone hj]
    · rw [Space.setTab_of_ne _ _ hne] at hs
      rw [htab l t hl hs, Space.setTab_pte]
      exact h.pte hl hs hj
  zero {l j} hl hn hj := by
    have hne : l ≠ k := by
      rintro rfl
      rw [Space.setTab_self] at hn
      cases hn
    rw [Space.setTab_of_ne _ _ hne] at hn
    exact h.zero hl hn hj
  data {u} hu hp := by
    rw [Space.setTab_pte] at hp ⊢
    rw [hpage u hu hp]
    exact h.data hu hp

namespace Inv

theorem ne_of_owns (h : Inv T U m d S hand) {o o' : Owner} {q : ℕ}
    (ho : Owns U m d S hand o pn) (ho' : Owns U m d S hand o' q) (hne : o ≠ o') : pn ≠ q := by
  rintro rfl
  exact hne (h.ledger.unique ho ho')

theorem rep_of_keeps (h : Inv T U m d S hand) {o : Owner} (ho : Owns U m d S hand o pn)
    (hdir : o ≠ .dir) (htab : ∀ k, o ≠ .tab k) (hpage : ∀ v, o ≠ .page v)
    (hm : ∀ q, q ≠ pn → m'.page q = m.page q) : Rep U m' d S := by
  refine h.rep.congr (hm d ?_) (fun k t hk ht => hm t ?_) fun v hv hp => hm _ ?_
  · exact h.ne_of_owns (o := .dir) rfl ho hdir.symm
  · exact h.ne_of_owns (o := .tab k) ⟨hk, ht⟩ ho (htab k).symm
  · exact h.ne_of_owns (o := .page v) ⟨hv, hp, rfl⟩ ho (hpage v).symm

/-! ## Allocation -/

theorem take {free : List ℕ} (h : Inv T U m d S none) (hfree : m.free = pn :: free) :
    Inv T U { m with free := free } d S (some (pn, m.page pn)) := by
  have hown : Owns U m d S none .free pn := by
    show pn ∈ m.free
    rw [hfree]
    exact List.mem_cons_self
  have hnodup := h.nodup
  rw [hfree, List.nodup_cons] at hnodup
  refine ⟨⟨h.rep.absent, h.rep.pde, h.rep.pte, h.rep.zero, h.rep.data⟩, ?_, ?_, hnodup.2⟩
  · rintro q c heq
    cases heq
    rfl
  · refine h.ledger.give .hand hown nofun (fun q => ?_) (fun q => ?_) fun o ho ho' q => ?_
    · show q ∈ free ↔ q ∈ m.free ∧ q ≠ pn
      rw [hfree, List.mem_cons]
      constructor
      · intro hq
        exact ⟨.inr hq, fun heq => hnodup.1 (heq ▸ hq)⟩
      · rintro ⟨rfl | hq, hne⟩
        · exact absurd rfl hne
        · exact hq
    · show some pn = some q ↔ (none : Option ℕ) = some q ∨ q = pn
      rw [Option.some.injEq, eq_comm]
      exact ⟨.inr, fun hq => hq.resolve_left nofun⟩
    · cases o with
      | free => exact absurd rfl ho
      | hand => exact absurd rfl ho'
      | dir | tab | page => exact Iff.rfl

theorem fill (h : Inv T U m d S (some (pn, b))) (b' : Bytes) :
    Inv T U (m.setPage pn b') d S (some (pn, b')) := by
  have hown : Owns U m d S (some (pn, b)) .hand pn := rfl
  refine ⟨?_, ?_, ?_, h.nodup⟩
  · exact h.rep_of_keeps hown nofun nofun nofun fun q hq => Mem.setPage_of_ne m b' hq
  · rintro q c heq
    cases heq
    exact Mem.setPage_self ..
  · refine h.ledger.congr (fun _ => Iff.rfl) fun o q => ?_
    cases o with
    | free | hand | dir | tab | page => exact Iff.rfl

theorem putBack (h : Inv T U m d S (some (pn, b))) : Inv T U (m.freed pn) d S none := by
  have hown : Owns U m d S (some (pn, b)) .hand pn := rfl
  have hnot : pn ∉ m.free := fun hin => h.ne_of_owns (o := .free) hin hown nofun rfl
  refine ⟨?_, nofun, ?_, List.nodup_cons.2 ⟨hnot, h.nodup⟩⟩
  · exact h.rep_of_keeps hown nofun nofun nofun fun q hq => Mem.setPage_of_ne m _ hq
  · refine h.ledger.give .free hown nofun (fun q => ?_) (fun q => ?_) fun o ho ho' q => ?_
    · show (none : Option ℕ) = some q ↔ some pn = some q ∧ q ≠ pn
      rw [Option.some.injEq]
      exact iff_of_false nofun fun hq => hq.2 hq.1.symm
    · show q ∈ pn :: m.free ↔ q ∈ m.free ∨ q = pn
      rw [List.mem_cons, or_comm]
    · cases o with
      | free => exact absurd rfl ho'
      | hand => exact absurd rfl ho
      | dir | tab | page => exact Iff.rfl

/-! ## Page tables -/

theorem addTable {free : List ℕ} {k w : ℕ} (h : Inv T U m d S hand) (hfree : m.free = pn :: free)
    (hk : k < 1024) (hnone : S.tab k = none) (hw : w < 4294967296) (hp : Present w)
    (hpn : pageOf w = pn) (hm : ∀ q, q ≠ pn → q ≠ d → m'.page q = m.page q)
    (hdir : m'.page d = (m.page d).setWord k w) (hnew : m'.page pn = .zero)
    (hfree' : m'.free = free) : Inv T U m' d (S.setTab k pn) hand := by
  have hown : Owns U m d S hand .free pn := by
    show pn ∈ m.free
    rw [hfree]
    exact List.mem_cons_self
  have hnodup := h.nodup
  rw [hfree, List.nodup_cons] at hnodup
  have hdirOwn : Owns U m d S hand .dir d := rfl
  refine ⟨?_, ?_, ?_, by rw [hfree']; exact hnodup.2⟩
  · refine h.rep.setTab hk hnone hw hp hpn hdir hnew (fun l t hl hs => hm t ?_ ?_)
      fun u hu hpu => hm _ ?_ ?_
    · exact h.ne_of_owns (o := .tab l) ⟨hl, hs⟩ hown nofun
    · exact h.ne_of_owns (o := .tab l) ⟨hl, hs⟩ hdirOwn nofun
    · exact h.ne_of_owns (o := .page u) ⟨hu, hpu, rfl⟩ hown nofun
    · exact h.ne_of_owns (o := .page u) ⟨hu, hpu, rfl⟩ hdirOwn nofun
  · rintro q c rfl
    have hq : Owns U m d S (some (q, c)) .hand q := rfl
    rw [hm q (h.ne_of_owns hq hown nofun) (h.ne_of_owns hq hdirOwn nofun)]
    exact h.held rfl
  · refine h.ledger.give (.tab k) hown nofun (fun q => ?_) (fun q => ?_) fun o ho ho' q => ?_
    · show q ∈ m'.free ↔ q ∈ m.free ∧ q ≠ pn
      rw [hfree', hfree, List.mem_cons]
      constructor
      · intro hq
        exact ⟨.inr hq, fun heq => hnodup.1 (heq ▸ hq)⟩
      · rintro ⟨rfl | hq, hne⟩
        · exact absurd rfl hne
        · exact hq
    · show k < 1024 ∧ (S.setTab k pn).tab k = some q ↔ (k < 1024 ∧ S.tab k = some q) ∨ q = pn
      rw [Space.setTab_self, hnone, Option.some.injEq]
      exact ⟨fun hq => .inr hq.2.symm, fun hq => ⟨hk, (hq.resolve_left nofun).symm⟩⟩
    · cases o with
      | free => exact absurd rfl ho
      | hand | dir | page => exact Iff.rfl
      | tab l =>
        have hl : l ≠ k := fun heq => ho' (heq ▸ rfl)
        show l < 1024 ∧ (S.setTab k pn).tab l = some q ↔ l < 1024 ∧ S.tab l = some q
        rw [Space.setTab_of_ne _ _ hl]

section Entry

variable {t v w : ℕ} (h : Inv T U m d S hand) (hv : v < 1048576)
  (ht : S.tab (v / 1024) = some t) (hw : w < 4294967296)
include h hv ht hw

theorem rep_store (hnew : U v → Present w → (m.setPage t ((m.page t).setWord (v % 1024) w)).page
    (pageOf w) = b) :
    Rep U (m.setPage t ((m.page t).setWord (v % 1024) w)) d (S.put v w b) := by
  have hk : v / 1024 < 1024 := by omega
  have hown : Owns U m d S hand (.tab (v / 1024)) t := ⟨hk, ht⟩
  refine h.rep.put hv ht hw (Mem.setPage_self ..) (Mem.setPage_of_ne m _ ?_)
    (fun k t' hk' hs hne => Mem.setPage_of_ne m _ ?_) (fun u hu hp _ => Mem.setPage_of_ne m _ ?_)
    hnew
  · exact h.ne_of_owns (o := .dir) rfl hown nofun
  · refine h.ne_of_owns (o := .tab k) ⟨hk', hs⟩ hown fun heq => hne ?_
    exact Owner.tab.inj heq
  · exact h.ne_of_owns (o := .page u) ⟨hu, hp, rfl⟩ hown nofun

theorem setEntry (hpresent : U v → (Present w ↔ Present (S.pte v)))
    (hpage : U v → Present w → pageOf w = pageOf (S.pte v)) :
    Inv T U (m.setPage t ((m.page t).setWord (v % 1024) w)) d (S.put v w (S.data v)) hand := by
  have hk : v / 1024 < 1024 := by omega
  have hown : Owns U m d S hand (.tab (v / 1024)) t := ⟨hk, ht⟩
  refine ⟨h.rep_store hv ht hw fun hu hp => ?_, ?_, ?_, h.nodup⟩
  · have hp' := (hpresent hu).1 hp
    rw [hpage hu hp, Mem.setPage_of_ne m _ (h.ne_of_owns (o := .page v) ⟨hu, hp', rfl⟩ hown nofun)]
    exact h.rep.data hu hp'
  · rintro q c rfl
    have hq : Owns U m d S (some (q, c)) .hand q := rfl
    rw [Mem.setPage_of_ne m _ (h.ne_of_owns hq hown nofun)]
    exact h.held rfl
  · refine h.ledger.congr (fun _ => Iff.rfl) fun o q => ?_
    cases o with
    | free | hand | dir | tab => exact Iff.rfl
    | page u =>
      refine and_congr_right fun hu => ?_
      by_cases huv : u = v
      · subst huv
        rw [Space.put_pte_self]
        refine (and_congr_right fun hp => ?_).trans (and_congr_left' (hpresent hu))
        rw [hpage hu hp]
      · rw [Space.put_pte_of_ne _ _ _ huv]

theorem setKernel (hU : ¬ U v) :
    Inv T U (m.setPage t ((m.page t).setWord (v % 1024) w)) d (S.put v w (S.data v)) hand :=
  h.setEntry hv ht hw (fun hu => absurd hu hU) fun hu => absurd hu hU

end Entry

theorem mapHand {t v w : ℕ} (h : Inv T U m d S (some (pn, b))) (hv : v < 1048576)
    (ht : S.tab (v / 1024) = some t) (hw : w < 4294967296) (hU : U v)
    (hfresh : ¬ Present (S.pte v)) (hp : Present w) (hpn : pageOf w = pn) :
    Inv T U (m.setPage t ((m.page t).setWord (v % 1024) w)) d (S.put v w b) none := by
  have hk : v / 1024 < 1024 := by omega
  have hown : Owns U m d S (some (pn, b)) (.tab (v / 1024)) t := ⟨hk, ht⟩
  have hhand : Owns U m d S (some (pn, b)) .hand pn := rfl
  refine ⟨h.rep_store hv ht hw fun _ _ => ?_, nofun, ?_, h.nodup⟩
  · rw [hpn, Mem.setPage_of_ne m _ (h.ne_of_owns hhand hown nofun)]
    exact h.held rfl
  · refine h.ledger.give (.page v) hhand nofun (fun q => ?_) (fun q => ?_)
      fun o ho ho' q => ?_
    · show (none : Option ℕ) = some q ↔ some pn = some q ∧ q ≠ pn
      rw [Option.some.injEq]
      exact iff_of_false nofun fun hq => hq.2 hq.1.symm
    · show U v ∧ Present ((S.put v w b).pte v) ∧ pageOf ((S.put v w b).pte v) = q ↔
        (U v ∧ Present (S.pte v) ∧ pageOf (S.pte v) = q) ∨ q = pn
      rw [Space.put_pte_self, hpn]
      exact ⟨fun hq => .inr hq.2.2.symm,
        fun hq => ⟨hU, hp, (hq.resolve_left fun hx => hfresh hx.2.1).symm⟩⟩
    · cases o with
      | hand => exact absurd rfl ho
      | free | dir | tab => exact Iff.rfl
      | page u =>
        have hne : u ≠ v := fun heq => ho' (heq ▸ rfl)
        show U u ∧ Present ((S.put v w b).pte u) ∧ _ ↔ U u ∧ Present (S.pte u) ∧ _
        rw [Space.put_pte_of_ne _ _ _ hne]

theorem write {v : ℕ} (h : Inv T U m d S hand) (hU : U v) (hp : Present (S.pte v)) (b' : Bytes) :
    Inv T U (m.setPage (pageOf (S.pte v)) b') d (S.put v (S.pte v) b') hand := by
  have hown : Owns U m d S hand (.page v) (pageOf (S.pte v)) := ⟨hU, hp, rfl⟩
  have hpte : (S.put v (S.pte v) b').pte = S.pte := update_eq_self ..
  have hm : ∀ {o q}, Owns U m d S hand o q → o ≠ .page v →
      (m.setPage (pageOf (S.pte v)) b').page q = m.page q := fun ho hne =>
    Mem.setPage_of_ne m b' (h.ne_of_owns ho hown hne)
  refine ⟨⟨?_, ?_, ?_, ?_, ?_⟩, ?_, ?_, h.nodup⟩
  · rw [hm (o := .dir) rfl nofun]
    exact h.rep.absent
  · rw [hm (o := .dir) rfl nofun]
    exact h.rep.pde
  · intro k t j hk hs hj
    rw [hm (o := .tab k) ⟨hk, hs⟩ nofun, hpte]
    exact h.rep.pte hk hs hj
  · rw [hpte]
    exact h.rep.zero
  · intro u hu hpu
    rw [hpte] at hpu ⊢
    by_cases huv : u = v
    · subst huv
      rw [Space.put_data_self]
      exact Mem.setPage_self ..
    · rw [Space.put_data_of_ne _ _ _ huv,
        hm (o := .page u) ⟨hu, hpu, rfl⟩ fun heq => huv (Owner.page.inj heq)]
      exact h.rep.data hu hpu
  · rintro q c rfl
    rw [hm (o := .hand) rfl nofun]
    exact h.held rfl
  · refine h.ledger.congr (fun _ => Iff.rfl) fun o q => ?_
    cases o with
    | free | hand | dir | tab => exact Iff.rfl
    | page u =>
      unfold Owns
      rw [hpte]

theorem unmap {t v : ℕ} (h : Inv T U m d S hand) (hv : v < 1048576)
    (ht : S.tab (v / 1024) = some t) (hU : U v) (hp : Present (S.pte v)) :
    Inv T U ((m.freed (pageOf (S.pte v))).setPage t
      (((m.freed (pageOf (S.pte v))).page t).setWord (v % 1024) 0)) d (S.put v 0 (S.data v))
      hand := by
  have hk : v / 1024 < 1024 := by omega
  have hown : Owns U m d S hand (.tab (v / 1024)) t := ⟨hk, ht⟩
  have hpage : Owns U m d S hand (.page v) (pageOf (S.pte v)) := ⟨hU, hp, rfl⟩
  have hnot : pageOf (S.pte v) ∉ m.free := fun hin => h.ne_of_owns (o := .free) hin hpage nofun rfl
  generalize hq : pageOf (S.pte v) = pn at *
  have ht' : (m.freed pn).page t = m.page t :=
    Mem.setPage_of_ne m _ (h.ne_of_owns hown hpage nofun)
  have hm : ∀ q, q ≠ t → q ≠ pn → ((m.freed pn).setPage t
      (((m.freed pn).page t).setWord (v % 1024) 0)).page q = m.page q := by
    intro q hqt hqp
    rw [Mem.setPage_of_ne _ _ hqt]
    exact Mem.setPage_of_ne m _ hqp
  refine ⟨?_, ?_, ?_, List.nodup_cons.2 ⟨hnot, h.nodup⟩⟩
  · refine h.rep.put hv ht (by decide) (by rw [Mem.setPage_self, ht']) (hm d ?_ ?_)
      (fun k t' hk' hs hne => hm t' ?_ ?_) (fun u hu hpu hne => hm _ ?_ ?_) nofun
    · exact h.ne_of_owns (o := .dir) rfl hown nofun
    · exact h.ne_of_owns (o := .dir) rfl hpage nofun
    · exact h.ne_of_owns (o := .tab k) ⟨hk', hs⟩ hown fun heq => hne (Owner.tab.inj heq)
    · exact h.ne_of_owns (o := .tab k) ⟨hk', hs⟩ hpage nofun
    · exact h.ne_of_owns (o := .page u) ⟨hu, hpu, rfl⟩ hown nofun
    · exact h.ne_of_owns (o := .page u) ⟨hu, hpu, rfl⟩ hpage fun heq => hne (Owner.page.inj heq)
  · rintro q c rfl
    have hheld : Owns U m d S (some (q, c)) .hand q := rfl
    rw [hm q (h.ne_of_owns hheld hown nofun) (h.ne_of_owns hheld hpage nofun)]
    exact h.held rfl
  · refine h.ledger.give .free hpage nofun (fun q => ?_) (fun q => ?_) fun o ho ho' q => ?_
    · show U v ∧ Present ((S.put v 0 (S.data v)).pte v) ∧ _ ↔
        (U v ∧ Present (S.pte v) ∧ pageOf (S.pte v) = q) ∧ q ≠ pn
      rw [Space.put_pte_self, hq]
      exact iff_of_false (fun hx => nomatch hx.2.1) fun hx => hx.2 hx.1.2.2.symm
    · show q ∈ pn :: m.free ↔ q ∈ m.free ∨ q = pn
      rw [List.mem_cons, or_comm]
    · cases o with
      | free => exact absurd rfl ho'
      | hand | dir | tab => exact Iff.rfl
      | page u =>
        have hne : u ≠ v := fun heq => ho (heq ▸ rfl)
        show U u ∧ Present ((S.put v 0 (S.data v)).pte u) ∧ _ ↔ U u ∧ Present (S.pte u) ∧ _
        rw [Space.put_pte_of_ne _ _ _ hne]

end Inv

/-! ## Running out of pages -/

/-- It is not a large set. -/
def AtMost (T : ℕ → Prop) (n : ℕ) : Prop :=
  ∀ l : List ℕ, l.Nodup → (∀ pn ∈ l, T pn) → l.length ≤ n

theorem Inv.atMost {n : ℕ} (h : Inv T U m d S hand) (hfree : m.free = [])
    (hpages : ∀ v, U v → Present (S.pte v) → v < n) : AtMost T (1026 + n) := by
  intro l hl hT
  -- a list of all the places
  have hsub : l ⊆ (List.range (1026 + n)).map fun c =>
      if c = 0 then d else if c = 1 then (hand.map Prod.fst).getD 0
      else if c < 1026 then (S.tab (c - 2)).getD 0 else pageOf (S.pte (c - 1026)) := by
    intro pn hpn
    obtain ⟨o, ho⟩ := h.ledger.complete (hT pn hpn)
    rw [List.mem_map]
    cases o with
    | free =>
      have hin : pn ∈ m.free := ho
      rw [hfree] at hin
      cases hin
    | hand =>
      refine ⟨1, List.mem_range.2 (by omega), ?_⟩
      rw [if_neg (by omega), if_pos rfl, show hand.map Prod.fst = some pn from ho]
      rfl
    | dir => exact ⟨0, List.mem_range.2 (by omega), (show pn = d from ho).symm⟩
    | tab k =>
      obtain ⟨hk, ht⟩ := ho
      refine ⟨k + 2, List.mem_range.2 (by omega), ?_⟩
      rw [if_neg (by omega), if_neg (by omega), if_pos (by omega), Nat.add_sub_cancel, ht]
      rfl
    | page v =>
      obtain ⟨hv, hp, hpn⟩ := ho
      have := hpages v hv hp
      refine ⟨1026 + v, List.mem_range.2 (by omega), ?_⟩
      rw [if_neg (by omega), if_neg (by omega), if_neg (by omega), Nat.add_sub_cancel_left, hpn]
  have hlen := (hl.subperm hsub).length_le
  rw [List.length_map, List.length_range] at hlen
  exact hlen

/-! ## The address space in memory -/

namespace Mem

def table (m : Mem) (d k : ℕ) : Option ℕ :=
  if Present ((m.page d).word k) then some (pageOf ((m.page d).word k)) else none

def pte (m : Mem) (d v : ℕ) : ℕ :=
  ((m.table d (v / 1024)).map fun t => (m.page t).word (v % 1024)).getD 0

def Reaches (m : Mem) (d pn : ℕ) : Prop :=
  pn = d ∨ (∃ k < 1024, m.table d k = some pn) ∨
    ∃ v, UserPage v ∧ Present (m.pte d v) ∧ pageOf (m.pte d v) = pn

/-- All of it. -/
def space (m : Mem) (d : ℕ) : Space := ⟨m.table d, m.pte d, fun v => m.page (pageOf (m.pte d v))⟩

theorem space_pte (m : Mem) (d : ℕ) : (m.space d).pte = m.pte d := rfl

theorem rep_space (m : Mem) (d : ℕ) : Rep U m d (m.space d) where
  absent {k} _ hnone hp := by
    have hsome : m.table d k = some _ := if_pos hp
    rw [show m.table d k = none from hnone] at hsome
    cases hsome
  pde {k t} _ hs := by
    change (if Present ((m.page d).word k) then some (pageOf ((m.page d).word k)) else none) =
      some t at hs
    split at hs
    · next hp => exact ⟨hp, Option.some.inj hs⟩
    · cases hs
  pte {k t j} _ hs hj := by
    show _ = m.pte d (1024 * k + j)
    unfold Mem.pte
    rw [index_div hj, index_mod hj, show m.table d k = some t from hs]
    rfl
  zero {k j} _ hnone hj := by
    show m.pte d (1024 * k + j) = 0
    unfold Mem.pte
    rw [index_div hj, show m.table d k = none from hnone]
    rfl
  data _ _ := rfl

end Mem

theorem Rep.table_eq (h : Rep U m d S) {k : ℕ} (hk : k < 1024) : m.table d k = S.tab k := by
  unfold Mem.table
  cases ht : S.tab k with
  | none => rw [if_neg (h.absent hk ht)]
  | some t =>
    obtain ⟨hp, hpn⟩ := h.pde hk ht
    rw [if_pos hp, hpn]

theorem Rep.pte_eq (h : Rep U m d S) {v : ℕ} (hv : v < 1048576) : m.pte d v = S.pte v := by
  have hk : v / 1024 < 1024 := by omega
  have hj : v % 1024 < 1024 := Nat.mod_lt _ (by decide)
  unfold Mem.pte
  rw [h.table_eq hk]
  cases ht : S.tab (v / 1024) with
  | none =>
    have hzero := h.zero hk ht hj
    rw [index_of] at hzero
    rw [hzero]
    rfl
  | some t =>
    have hpte := h.pte hk ht hj
    rw [index_of] at hpte
    exact hpte

theorem Inv.of_reaches (h : Inv T UserPage m d S none) {pn : ℕ} (hr : m.Reaches d pn) :
    T pn ∧ pn ∉ m.free := by
  have hown : ∃ o, Owns UserPage m d S none o pn ∧ o ≠ .free := by
    rcases hr with rfl | ⟨k, hk, ht⟩ | ⟨v, hv, hp, hpn⟩
    · exact ⟨.dir, rfl, nofun⟩
    · rw [h.rep.table_eq hk] at ht
      exact ⟨.tab k, ⟨hk, ht⟩, nofun⟩
    · rw [h.rep.pte_eq hv.lt] at hp hpn
      exact ⟨.page v, ⟨hv, hp, hpn⟩, nofun⟩
  obtain ⟨o, ho, hne⟩ := hown
  refine ⟨h.ledger.sound ho, fun hin => hne ?_⟩
  have hfree : Owns UserPage m d S none .free pn := hin
  exact h.ledger.unique ho hfree

/-! ## A process of one page -/

def onePage : Mem where
  page := fun pn =>
    if pn = 300 then Bytes.setWord .zero 0 (301 * 4096 + 7)
    else if pn = 301 then Bytes.setWord .zero 0 (302 * 4096 + 7)
    else .zero
  free := [400, 401, 402]

theorem onePage_table {k t : ℕ} (h : onePage.table 300 k = some t) : k = 0 ∧ t = 301 := by
  have hword : (onePage.page 300).word k = if k = 0 then 301 * 4096 + 7 else 0 := by
    show (Bytes.setWord .zero 0 (301 * 4096 + 7)).word k = _
    split
    · next hk => rw [hk, Bytes.word_setWord_self _ (by decide)]
    · next hk => rw [Bytes.word_setWord_of_ne _ hk, Bytes.word_zero]
  unfold Mem.table at h
  rw [hword] at h
  by_cases hk : k = 0
  · rw [if_pos hk] at h
    cases h
    exact ⟨hk, rfl⟩
  · rw [if_neg hk] at h
    cases h

theorem onePage_pte (v : ℕ) : onePage.pte 300 v = if v = 0 then 302 * 4096 + 7 else 0 := by
  unfold Mem.pte
  cases ht : onePage.table 300 (v / 1024) with
  | none =>
    have hv : v ≠ 0 := by
      rintro rfl
      cases ht
    rw [if_neg hv]
    rfl
  | some t =>
    obtain ⟨hk, rfl⟩ := onePage_table ht
    show (Bytes.setWord .zero 0 (302 * 4096 + 7)).word (v % 1024) = _
    split
    · next hv => rw [hv, Bytes.word_setWord_self _ (by decide)]
    · next hv => rw [Bytes.word_setWord_of_ne _ (by omega), Bytes.word_zero]

/-- Who has which page. -/
def onePageOwner (pn : ℕ) : Owner :=
  if pn = 300 then .dir else if pn = 301 then .tab 0 else if pn = 302 then .page 0 else .free

theorem onePage_owns {o : Owner} (h : Owns UserPage onePage 300 (onePage.space 300) none o pn) :
    pn ∈ [300, 301, 302, 400, 401, 402] ∧ o = onePageOwner pn := by
  cases o with
  | free =>
    have hpn : pn ∈ [400, 401, 402] := h
    simp only [List.mem_cons, List.not_mem_nil, or_false] at hpn
    rcases hpn with rfl | rfl | rfl <;> exact ⟨by decide, rfl⟩
  | hand => cases h
  | dir =>
    obtain rfl : pn = 300 := h
    exact ⟨by decide, rfl⟩
  | tab k =>
    obtain ⟨rfl, rfl⟩ := onePage_table h.2
    exact ⟨by decide, rfl⟩
  | page v =>
    obtain ⟨-, hp, hpn⟩ := h
    rw [Mem.space_pte, onePage_pte] at hp hpn
    by_cases hv : v = 0
    · subst hv
      subst hpn
      exact ⟨by decide, rfl⟩
    · rw [if_neg hv] at hp
      cases hp

theorem onePage_inv : Inv (· ∈ [300, 301, 302, 400, 401, 402]) UserPage onePage 300
    (onePage.space 300) none := by
  refine ⟨onePage.rep_space 300, nofun, ⟨fun ho => (onePage_owns ho).1, fun ho ho' => ?_,
    fun {pn} hpn => ⟨onePageOwner pn, ?_⟩⟩, by decide⟩
  · rw [(onePage_owns ho).2, (onePage_owns ho').2]
  · simp only [List.mem_cons, List.not_mem_nil, or_false] at hpn
    rcases hpn with rfl | rfl | rfl | rfl | rfl | rfl
    · rfl
    · exact ⟨by decide, rfl⟩
    · exact ⟨show 0 < 524288 by decide, by decide⟩
    · exact List.mem_cons_self
    · exact List.mem_cons_of_mem _ List.mem_cons_self
    · exact List.mem_cons_of_mem _ (List.mem_cons_of_mem _ List.mem_cons_self)

theorem onePage_usable {pn : ℕ} (h : pn ∈ [300, 301, 302, 400, 401, 402]) :
    someLayout.Usable pn := by
  simp only [List.mem_cons, List.not_mem_nil, or_false] at h
  rcases h with rfl | rfl | rfl | rfl | rfl | rfl <;> decide

end Xv6.Vm
