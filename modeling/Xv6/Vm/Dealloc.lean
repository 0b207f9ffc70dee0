import Xv6.Vm.Free
import Xv6.Vm.Translate

/-!
# `deallocuvm`

`deallocuvm` passes over the absent page tables. Visiting every page does the same, on any memory: it
finds no page table for the pages in between. What it does is free the pages and clear their entries,
if they are pages that `kfree` takes and nothing else uses.
-/

namespace Xv6.Vm

variable {L : Layout} {m m' : Mem} {d v oldsz newsz : ℕ}

def Gone (newsz oldsz v : ℕ) : Prop := newsz ≤ v * PGSIZE ∧ v * PGSIZE < oldsz

instance (newsz oldsz v : ℕ) : Decidable (Gone newsz oldsz v) :=
  inferInstanceAs (Decidable (newsz ≤ v * PGSIZE ∧ v * PGSIZE < oldsz))

theorem gone_iff :
    Gone newsz oldsz v ↔ (newsz + 4095) / PGSIZE ≤ v ∧ v < (oldsz + 4095) / PGSIZE := by
  unfold Gone PGSIZE
  omega

/-! ## Every page -/

def deallocPage (pgdir v : ℕ) : Sys Unit := do
  match ← walkpgdir pgdir (v * PGSIZE) false with
  | none => pure ()
  | some x => do
    let pte ← call (.load x.1 x.2)
    if Present pte then do
      panicUnless (pageOf pte ≠ 0) "kfree"
      kfree (pageOf pte)
      call (.store x.1 x.2 0)

/-- `n` pages from `v` on. -/
def deallocPages (pgdir : ℕ) : ℕ → ℕ → Sys Unit
  | 0, _ => pure ()
  | n + 1, v => do
    deallocPage pgdir v
    deallocPages pgdir n (v + 1)

def deallocEach (pgdir oldsz newsz : ℕ) : Sys ℕ :=
  if oldsz ≤ newsz then return oldsz
  else do
    deallocPages pgdir ((oldsz + 4095) / PGSIZE - (newsz + 4095) / PGSIZE) ((newsz + 4095) / PGSIZE)
    return newsz

section Each

variable {hi n : ℕ}

theorem walkpgdir_exec {α : Type} (hv : v < 1048576) (f : Option (ℕ × ℕ) → Sys α) :
    (walkpgdir d (v * PGSIZE) false >>= f).exec (Op.perform L) m =
      (f (m.slot d v)).exec (Op.perform L) m := by
  unfold walkpgdir Mem.slot Mem.table
  rw [PDX_page hv, PTX_page]
  show Task.exec (Op.perform L) ((if Present ((m.page d).word (v / 1024)) then _ else _) >>= f) m = _
  by_cases hp : Present ((m.page d).word (v / 1024))
  · rw [if_pos hp, if_pos hp]
    rfl
  · rw [if_neg hp, if_neg hp]
    rfl

theorem deallocPages_absent (hv : v < 1048576) (h : m.table d (v / 1024) = none) :
    (deallocPages d (n + 1) v).exec (Op.perform L) m =
      (deallocPages d n (v + 1)).exec (Op.perform L) m := by
  show ((deallocPage d v >>= fun _ => deallocPages d n (v + 1)).exec (Op.perform L) m) = _
  unfold deallocPage
  rw [Task.bind_assoc, walkpgdir_exec hv]
  unfold Mem.slot
  rw [h]
  rfl

theorem deallocPages_skip (j : ℕ) (hj : v % 1024 + j ≤ 1024) (hv : v < 1048576)
    (h : m.table d (v / 1024) = none) :
    (deallocPages d (j + n) v).exec (Op.perform L) m =
      (deallocPages d n (v + j)).exec (Op.perform L) m := by
  induction j generalizing v with
  | zero => rw [Nat.zero_add, Nat.add_zero]
  | succ j ih =>
    rw [show j + 1 + n = j + n + 1 by omega, deallocPages_absent hv h]
    rcases Nat.eq_zero_or_pos j with rfl | hpos
    · rw [Nat.zero_add]
    · rw [ih (by omega) (by omega) (by rw [show (v + 1) / 1024 = v / 1024 by omega]; exact h),
        Nat.add_assoc, Nat.add_comm 1]

theorem deallocuvmFrom_exec {fuel : ℕ} (hsz : ∀ u, u * PGSIZE < oldsz ↔ u < hi)
    (hhi : hi ≤ 524288) (hfuel : hi - v < fuel) :
    (deallocuvmFrom d oldsz fuel (v * PGSIZE)).exec (Op.perform L) m =
      (deallocPages d (hi - v) v).exec (Op.perform L) m := by
  induction fuel generalizing m v with
  | zero => exact absurd hfuel (Nat.not_lt_zero _)
  | succ fuel ih =>
    unfold deallocuvmFrom
    by_cases hv : v < hi
    · rw [if_pos ((hsz v).2 hv), walkpgdir_exec (by omega)]
      cases ht : m.table d (v / 1024) with
      | none =>
        have hslot : m.slot d v = none := by
          unfold Mem.slot
          rw [ht]
          rfl
        rw [hslot]
        dsimp only
        rw [uint_skip (by omega), ih (by omega)]
        by_cases hend : 1024 * (v / 1024 + 1) ≤ hi
        · have hskip := deallocPages_skip (L := L) (n := hi - 1024 * (v / 1024 + 1))
            (1024 * (v / 1024 + 1) - v) (by omega) (by omega) ht
          rw [show 1024 * (v / 1024 + 1) - v + (hi - 1024 * (v / 1024 + 1)) = hi - v by omega,
            show v + (1024 * (v / 1024 + 1) - v) = 1024 * (v / 1024 + 1) by omega] at hskip
          exact hskip.symm
        · -- the last page table
          have hskip := deallocPages_skip (L := L) (n := 0) (hi - v) (by omega) (by omega) ht
          rw [Nat.add_zero] at hskip
          rw [hskip, Nat.sub_eq_zero_of_le (by omega)]
          rfl
      | some t =>
        have hslot : m.slot d v = some (t, v % 1024) := by
          unfold Mem.slot
          rw [ht]
          rfl
        rw [show hi - v = hi - (v + 1) + 1 by omega]
        unfold deallocPages deallocPage
        rw [Task.bind_assoc, walkpgdir_exec (by omega), hslot, uint_next (by omega)]
        dsimp only
        rw [Task.bind_assoc]
        refine Task.exec_bind_congr fun pte s' => ?_
        by_cases hp : Present pte
        · rw [if_pos hp, if_pos hp, Task.bind_assoc]
          refine Task.exec_bind_congr fun _ s' => ?_
          rw [Task.bind_assoc]
          refine Task.exec_bind_congr fun _ s' => ?_
          exact Task.exec_bind_congr fun _ s' => ih (by omega)
        · rw [if_neg hp, if_neg hp]
          exact ih (by omega)
    · rw [if_neg (fun hlt => hv ((hsz v).1 hlt)), Nat.sub_eq_zero_of_le (by omega)]
      rfl

end Each

theorem deallocuvm_exec (hold : oldsz ≤ KERNBASE) :
    (deallocuvm d oldsz newsz).exec (Op.perform L) m =
      (deallocEach d oldsz newsz).exec (Op.perform L) m := by
  unfold KERNBASE at hold
  have hhi : (oldsz + 4095) / PGSIZE ≤ 524288 := by
    unfold PGSIZE
    omega
  unfold deallocuvm deallocEach
  split
  · rfl
  · have hfuel : (oldsz + 4095) / PGSIZE - (newsz + 4095) / PGSIZE < 1048577 :=
      (Nat.sub_le _ _).trans_lt (hhi.trans_lt (by decide))
    rw [PGROUNDUP_eq (by omega), Task.exec_bind, Task.exec_bind,
      deallocuvmFrom_exec (fun u => lt_size_iff u oldsz) hhi hfuel]

/-! ## What is freed -/

/-- The pages of a range of addresses have been freed, each of them once, and their entries cleared;
the other entries are as they were. -/
structure Deallocated (m m' : Mem) (d newsz oldsz : ℕ) : Prop where
  free : ∀ pn, pn ∈ m'.free ↔ pn ∈ m.free ∨
    ∃ v, Gone newsz oldsz v ∧ Present (m.pte d v) ∧ pageOf (m.pte d v) = pn
  nodup : m'.free.Nodup
  cleared : ∀ v, Gone newsz oldsz v → Present (m.pte d v) → m'.pte d v = 0
  kept : ∀ v < 1048576, ¬ (Gone newsz oldsz v ∧ Present (m.pte d v)) → m'.pte d v = m.pte d v

theorem Deallocated.of_le (hle : oldsz ≤ newsz) (h : Tables m d) :
    Deallocated m m d newsz oldsz := by
  have hnot : ∀ v, ¬ Gone newsz oldsz v := fun v hv => by
    obtain ⟨hlo, hhi⟩ := hv
    omega
  refine ⟨fun pn => ?_, h.nodup, fun v hv => absurd hv (hnot v), fun _ _ _ => rfl⟩
  rw [or_iff_left]
  rintro ⟨v, hv, -⟩
  exact hnot v hv

theorem Deallocated.of_inv {T : ℕ → Prop} {S : Space} (hold : oldsz ≤ KERNBASE)
    (h : Inv T (Gone newsz oldsz) m d S none)
    (h' : Inv T (Gone newsz oldsz) m' d
      (S.clear ((newsz + 4095) / PGSIZE) ((oldsz + 4095) / PGSIZE)) none) :
    Deallocated m m' d newsz oldsz := by
  unfold KERNBASE at hold
  have hlt : ∀ {v}, Gone newsz oldsz v → v < 1048576 := fun {v} hv => by
    have := hv.2
    unfold PGSIZE at this
    omega
  have hpte : ∀ v < 1048576, m'.pte d v =
      if Gone newsz oldsz v ∧ Present (m.pte d v) then 0 else m.pte d v := by
    intro v hv
    rw [h'.rep.pte_eq hv, h.rep.pte_eq hv]
    refine if_congr ?_ rfl rfl
    rw [gone_iff, and_assoc]
  refine ⟨fun pn => ⟨fun hin => ?_, fun hpn => ?_⟩, h'.nodup, fun v hv hp => ?_, fun v hv hnot => ?_⟩
  · have hfree : Owns (Gone newsz oldsz) m' d (S.clear ((newsz + 4095) / PGSIZE)
        ((oldsz + 4095) / PGSIZE)) none .free pn := hin
    obtain ⟨o, ho⟩ := h.ledger.complete (h'.ledger.sound hfree)
    cases o with
    | free => exact .inl ho
    | hand => cases ho
    | dir => exact absurd rfl (h'.ne_of_owns hfree (show Owns _ _ _ _ _ .dir pn from ho) nofun)
    | tab k => exact absurd rfl (h'.ne_of_owns hfree (show Owns _ _ _ _ _ (.tab k) pn from ho) nofun)
    | page v =>
      obtain ⟨hv, hp⟩ := ho
      rw [← h.rep.pte_eq (hlt hv)] at hp
      exact .inr ⟨v, hv, hp⟩
  · -- what was free or in the range belongs to nothing else
    have hown : ∃ o, Owns (Gone newsz oldsz) m d S none o pn ∧ o ≠ .dir ∧ ∀ k, o ≠ .tab k := by
      rcases hpn with hin | ⟨v, hv, hp⟩
      · exact ⟨.free, hin, nofun, nofun⟩
      · rw [h.rep.pte_eq (hlt hv)] at hp
        exact ⟨.page v, ⟨hv, hp⟩, nofun, nofun⟩
    obtain ⟨o, ho, hdir, htab⟩ := hown
    obtain ⟨o', ho'⟩ := h'.ledger.complete (h.ledger.sound ho)
    cases o' with
    | free => exact ho'
    | hand => cases ho'
    | dir => exact absurd rfl (h.ne_of_owns ho (show Owns _ _ _ _ _ .dir pn from ho') hdir)
    | tab k => exact absurd rfl (h.ne_of_owns ho (show Owns _ _ _ _ _ (.tab k) pn from ho') (htab k))
    | page v =>
      obtain ⟨hv, hp, -⟩ := ho'
      exact absurd hp (S.not_present_clear (gone_iff.1 hv).1 (gone_iff.1 hv).2)
  · rw [hpte v (hlt hv), if_pos ⟨hv, hp⟩]
  · rw [hpte v hv, if_neg hnot]

/-- `deallocuvm` is `deallocEach`; and on a page directory whose pages in the range can be freed, it
frees them. -/
theorem deallocuvm_deallocates (hold : oldsz ≤ KERNBASE) (h : Tables m d)
    (hU : Owned (Gone newsz oldsz) m d)
    (hL : ∀ v, Gone newsz oldsz v → Present (m.pte d v) → L.Usable (pageOf (m.pte d v))) :
    (∀ m, (deallocuvm d oldsz newsz).exec (Op.perform L) m =
      (deallocEach d oldsz newsz).exec (Op.perform L) m) ∧
    ∃ m', (deallocuvm d oldsz newsz).exec (Op.perform L) m =
        some (.inl (if newsz < oldsz then newsz else oldsz), m') ∧
      Deallocated m m' d newsz oldsz := by
  refine ⟨fun m => deallocuvm_exec hold, ?_⟩
  by_cases hlt : newsz < oldsz
  · have hinv := h.inv hU
    have hhi : (oldsz + 4095) / PGSIZE ≤ 524288 := by
      unfold KERNBASE at hold
      unfold PGSIZE
      omega
    have hends : Ends L (fun _ _ => False) (deallocuvm d oldsz newsz)
        (fun r m' => r = newsz ∧ Deallocated m m' d newsz oldsz) m := by
      unfold deallocuvm
      rw [if_neg (by omega), PGROUNDUP_eq (by unfold KERNBASE at hold; omega)]
      refine Task.wp_bind.2 (deallocuvmFrom_ends (fun u => lt_size_iff u oldsz) hhi
        (fun u hlo hhi => gone_iff.2 ⟨hlo, hhi⟩) (fun u hlo hhi => hL u (gone_iff.2 ⟨hlo, hhi⟩))
        ?_ hinv fun m' h' _ => ⟨rfl, .of_inv hold hinv h'⟩)
      exact (Nat.sub_le _ _).trans_lt (hhi.trans_lt (by decide))
    rw [if_pos hlt]
    obtain ⟨r, m', hexec, rfl, hm'⟩ | ⟨why, m', -, hfalse⟩ := Task.Wp.exec (fun _ => rfl) hends
    · exact ⟨m', hexec, hm'⟩
    · exact hfalse.elim
  · rw [if_neg hlt]
    refine ⟨m, ?_, .of_le (by omega) h⟩
    unfold deallocuvm
    rw [if_pos (by omega)]
    rfl

theorem deallocuvm_deallocates_onePage :
    (∀ m, (deallocuvm 300 4096 0).exec (Op.perform someLayout) m =
      (deallocEach 300 4096 0).exec (Op.perform someLayout) m) ∧
    ∃ m', (deallocuvm 300 4096 0).exec (Op.perform someLayout) onePage =
        some (.inl (if 0 < 4096 then 0 else 4096), m') ∧ Deallocated onePage m' 300 0 4096 := by
  have hpage : ∀ {v}, Present (onePage.pte 300 v) → v = 0 ∧ pageOf (onePage.pte 300 v) = 302 := by
    intro v hp
    rw [onePage_pte] at hp ⊢
    split at hp
    · next hv => exact ⟨hv, by rw [if_pos hv]; decide⟩
    · cases hp
  refine deallocuvm_deallocates (by decide) onePage_tables ⟨fun _ _ hp hp' _ => ?_, fun _ hp => ?_,
    fun _ hp _ ht => ?_, fun _ hp => ?_⟩ fun v _ hp => ?_
  · rw [(hpage hp).1, (hpage hp').1]
  · rw [(hpage hp).2]
    decide
  · have h301 := (onePage_table ht).2
    rw [(hpage hp).2] at h301
    cases h301
  · rw [(hpage hp).2]
    decide
  · rw [(hpage hp).2]
    decide

def lowPage : Mem := onePage.setPage 301 (Bytes.setWord .zero 0 (1 * 4096 + 7))

theorem lowPage_table (k : ℕ) : lowPage.table 300 k = onePage.table 300 k := rfl

theorem lowPage_tables : Tables lowPage 300 where
  distinct hk hl ht ht' := onePage_tables.distinct hk hl ht ht'
  ne_dir hk ht := onePage_tables.ne_dir hk ht
  not_free hk ht := onePage_tables.not_free hk ht
  dir_lt := onePage_tables.dir_lt
  dir_not_free := onePage_tables.dir_not_free
  free_lt := onePage_tables.free_lt
  nodup := onePage_tables.nodup

/-- The address in its entry is not 0, but `kfree` does not take it. -/
theorem deallocuvm_panics : Tables lowPage 300 ∧
    (∀ v, UserPage v → Present (lowPage.pte 300 v) → pageOf (lowPage.pte 300 v) ≠ 0) ∧
    ∃ m', (deallocuvm 300 4096 0).exec (Op.perform someLayout) lowPage =
      some (.inr "kfree", m') := by
  refine ⟨lowPage_tables, fun v _ hp => ?_, ?_⟩
  · unfold Mem.pte at hp ⊢
    rw [lowPage_table] at hp ⊢
    cases ht : onePage.table 300 (v / 1024) with
    | none =>
      rw [ht] at hp
      cases hp
    | some t =>
      obtain ⟨-, rfl⟩ := onePage_table ht
      have hword : (lowPage.page 301).word (v % 1024) = if v % 1024 = 0 then 4103 else 0 := by
        show (Bytes.setWord .zero 0 4103).word (v % 1024) = _
        split
        · next hv => rw [hv, Bytes.word_setWord_self _ (by decide)]
        · next hv => rw [Bytes.word_setWord_of_ne _ hv, Bytes.word_zero]
      rw [ht] at hp
      change Present ((lowPage.page 301).word (v % 1024)) at hp
      show pageOf ((lowPage.page 301).word (v % 1024)) ≠ 0
      rw [hword] at hp ⊢
      split at hp
      · next hv =>
        rw [if_pos hv]
        decide
      · cases hp
  · have hrun : ((deallocuvm 300 4096 0).exec (Op.perform someLayout) lowPage).map
        (fun x => decide (x.1 = .inr "kfree")) = some true := by
      decide +kernel
    obtain ⟨⟨r, m'⟩, hexec, hx⟩ := Option.map_eq_some_iff.1 hrun
    obtain rfl := of_decide_eq_true hx
    exact ⟨m', hexec⟩

end Xv6.Vm
