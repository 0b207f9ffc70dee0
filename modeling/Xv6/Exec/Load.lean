import Xv6.Exec.Machine
import Xv6.Vm.Grow
import Xv6.Vm.Kernel

/-!
# Loading a program

The loading loop of `exec`, on any bytes. Segments may overlap, come in any order or be empty, but
`allocuvm` always starts at the size so far: every page below that is there, and no page from there
on. So `mappages` meets no page that is mapped already, and `loaduvm` finds a page table for every
address of the segment.
-/

namespace Xv6.Exec

open Vm hiding Op Sys call Ends

variable {L : Layout} {T : ℕ → Prop} {file : Option (List Byte)} {D : String → State → Prop}
  {s : State} {d n sz : ℕ} {S : Space} {m m₀ : Mem} {α : Type}

abbrev Ends (L : Layout) (file : Option (List Byte)) (D : String → State → Prop) (t : Sys α)
    (Q : α → State → Prop) (s : State) : Prop :=
  t.Wp (Op.perform L file) (· = ·) D Q s

theorem vm_ends {Q : α → State → Prop} {t : Vm.Sys α}
    (h : Vm.Ends L (fun why m' => D why { s with mem := m' }) t
      (fun a m' => Q a { s with mem := m' }) m) : Ends L file D (vm t) Q { s with mem := m } :=
  Task.Wp.map (fun m => { s with mem := m }) (fun _ _ => Option.map_map ..) h

theorem call_vm (o : Vm.Op) : call (.vm o) = vm (Vm.call o) := rfl

def structAt (file : Option (List Byte)) (off len : ℕ) : Option (List Byte) :=
  (file.bind fun a => Alloc.arrayRead a off len).filter fun bs => decide (bs.length = len)

theorem readi_ends {off len : ℕ} {Q : Option (List Byte) → State → Prop} (hl : s.locked = true)
    (hQ : Q (file.bind fun a => Alloc.arrayRead a off len) s) :
    Ends L file D (call (.readi off len)) Q s := by
  rintro _ rfl
  exact ⟨_, _, if_pos hl, hQ⟩

theorem readStruct_ends {off len : ℕ} {Q : Option (List Byte) → State → Prop}
    (hl : s.locked = true) (hQ : Q (structAt file off len) s) :
    Ends L file D (readStruct off len) Q s :=
  Task.wp_bind.2 (readi_ends hl hQ)

/-- An address space that `setupkvm` has made and that has the user pages below `n`. There are no
page tables between physical memory and the devices. -/
structure Image (L : Layout) (S : Space) (n : ℕ) : Prop where
  present : ∀ u, UserPage u → (Present (S.pte u) ↔ u < n)
  kernel : ∀ u, ¬ UserPage u → S.pte u = kernelPte L u
  gap : ∀ k, 568 ≤ k → k < 1016 → S.tab k = none

theorem Image.congr {S' : Space} (h : Image L S n) (htab : S'.tab = S.tab)
    (hpte : S'.pte = S.pte) : Image L S' n := by
  refine ⟨fun u hu => ?_, fun u hu => ?_, fun k hk hk' => ?_⟩
  · rw [hpte]
    exact h.present u hu
  · rw [hpte]
    exact h.kernel u hu
  · rw [htab]
    exact h.gap k hk hk'

theorem gap_of_used {t k : ℕ} (hkernel : ∀ u, ¬ UserPage u → S.pte u = kernelPte L u)
    (hk : 568 ≤ k) (hk' : k < 1016)
    (hused : S.tab k = some t → ∃ v, v / 1024 = k ∧ Present (S.pte v)) : S.tab k ≠ some t := by
  intro ht
  obtain ⟨v, hv, hp⟩ := hused ht
  have hv' : 581632 ≤ v ∧ v < 1040384 := by omega
  rw [hkernel v (by unfold UserPage; omega), kernelPte_gap L (.inr (.inl hv'))] at hp
  cases hp

theorem Image.grown {S' : Space} {hi : ℕ} (h : Image L S n) (hle : n ≤ hi) (hhi : hi ≤ 524288)
    (hgrown : S.Grown S' n hi) : Image L S' hi := by
  have hkernel : ∀ u, ¬ UserPage u → S'.pte u = kernelPte L u := by
    intro u hu
    unfold UserPage at hu
    rw [hgrown.pte (by omega)]
    exact h.kernel u hu
  refine ⟨fun u hu => ?_, hkernel, fun k hk hk' => Option.eq_none_iff_forall_ne_some.2 fun t => ?_⟩
  · by_cases hin : n ≤ u ∧ u < hi
    · exact iff_of_true (hgrown.new hin.1 hin.2).1 hin.2
    · rw [hgrown.pte (by omega), h.present u hu]
      omega
  · refine gap_of_used hkernel hk hk' fun ht => (hgrown.tab ht).resolve_left ?_
    rw [h.gap k hk hk']
    nofun

theorem tab_of_present {v : ℕ} (h : Rep UserPage m d S) (hv : v < 1048576)
    (hp : Present (S.pte v)) : ∃ t, S.tab (v / 1024) = some t := by
  cases ht : S.tab (v / 1024) with
  | some t => exact ⟨t, rfl⟩
  | none =>
    have hzero := h.zero (by omega) ht (Nat.mod_lt v (by decide))
    rw [index_of] at hzero
    rw [hzero] at hp
    cases hp

/-! ## `loaduvm` -/

theorem loaduvmFrom_ends {Q : Bool → State → Prop} {a offset i k fuel : ℕ}
    (hl : s.locked = true) (hsz : ∀ u, u * PGSIZE < sz ↔ u < k) (ha : a + k ≤ 524288)
    (hpresent : ∀ u, a ≤ u → u < a + k → Present (S.pte u)) (hi : i ≤ k) (hfuel : k - i < fuel)
    (hkeeps : Keeps T m₀ m) (h : Inv T UserPage m d S none)
    (hQ : ∀ b m' S', Inv T UserPage m' d S' none → Keeps T m₀ m' → S'.tab = S.tab →
      S'.pte = S.pte → Q b { s with mem := m' }) :
    Ends L file D (loaduvmFrom d (a * PGSIZE) offset sz fuel (i * PGSIZE)) Q
      { s with mem := m } := by
  induction fuel generalizing m S i with
  | zero => exact absurd hfuel (Nat.not_lt_zero _)
  | succ fuel ih =>
    unfold loaduvmFrom
    by_cases hlt : i < k
    · have hU : UserPage (a + i) := lt_of_lt_of_le (by omega) ha
      have hp : Present (S.pte (a + i)) := hpresent _ (by omega) (by omega)
      obtain ⟨t, ht⟩ := tab_of_present h.rep hU.lt hp
      have haddr : uint (a * PGSIZE + i * PGSIZE) = (a + i) * PGSIZE := by
        rw [← Nat.add_mul, uint_of_lt]
        unfold PGSIZE
        omega
      rw [if_pos ((hsz i).2 hlt), haddr]
      refine Task.wp_bind.2 (vm_ends (walkpgdir_ends h.rep hU.lt (fun hnone => ?_)
        fun t' ht' => ?_))
      · rw [ht] at hnone
        cases hnone
      · dsimp only
        have hk : (a + i) / 1024 < 1024 := by omega
        rw [call_vm]
        refine Task.wp_bind.2 (vm_ends (load_ends ?_))
        rw [h.rep.pte hk ht' (Nat.mod_lt _ (by decide)), index_of]
        generalize (if sz - i * PGSIZE < PGSIZE then sz - i * PGSIZE else PGSIZE) = len
        refine Task.wp_bind.2 (readi_ends hl ?_)
        cases file.bind fun a => Alloc.arrayRead a (uint (offset + i * PGSIZE)) len with
        | none => exact hQ false m S h hkeeps rfl rfl
        | some bs =>
          dsimp only
          rw [call_vm]
          refine Task.wp_bind.2 (vm_ends (write_ends ?_))
          have hown : Owns UserPage m d S none (.page (a + i)) (pageOf (S.pte (a + i))) :=
            ⟨hU, hp, rfl⟩
          have hpte : ∀ b, (S.put (a + i) (S.pte (a + i)) b).pte = S.pte := fun _ =>
            Function.update_eq_self ..
          have h' := h.write hU hp ((m.page (pageOf (S.pte (a + i)))).splice 0 bs)
          have hkeeps' := hkeeps.trans (keeps_setPage
            (b := (m.page (pageOf (S.pte (a + i)))).splice 0 bs) (h.ledger.sound hown))
          split
          · rw [uint_next (by omega)]
            refine ih (fun u hu hu' => ?_) (by omega) (by omega) hkeeps' h'
              fun b m' S' hinv hk' htab hS' => hQ b m' S' hinv hk' htab (hS'.trans (hpte _))
            rw [hpte]
            exact hpresent u hu hu'
          · exact hQ false _ _ h' hkeeps' rfl (hpte _)
    · rw [if_neg (fun hx => hlt ((hsz i).1 hx))]
      exact hQ true m S h hkeeps rfl rfl

theorem loaduvm_ends {Q : Bool → State → Prop} {addr offset : ℕ} (hl : s.locked = true)
    (haddr : addr % PGSIZE = 0) (hend : addr + sz ≤ KERNBASE)
    (hpresent : ∀ u, addr ≤ u * PGSIZE → u * PGSIZE < addr + sz → Present (S.pte u))
    (hkeeps : Keeps T m₀ m) (h : Inv T UserPage m d S none)
    (hQ : ∀ b m' S', Inv T UserPage m' d S' none → Keeps T m₀ m' → S'.tab = S.tab →
      S'.pte = S.pte → Q b { s with mem := m' }) :
    Ends L file D (loaduvm d addr offset sz) Q { s with mem := m } := by
  obtain ⟨a, rfl⟩ : ∃ a, addr = a * PGSIZE :=
    ⟨addr / PGSIZE, (Nat.div_mul_cancel (Nat.dvd_of_mod_eq_zero haddr)).symm⟩
  unfold KERNBASE at hend
  have hpages : a + (sz + 4095) / PGSIZE ≤ 524288 := by
    unfold PGSIZE at *
    omega
  unfold loaduvm
  rw [if_neg (not_not.2 haddr)]
  rw [← Nat.zero_mul PGSIZE]
  refine loaduvmFrom_ends hl (fun u => lt_size_iff u sz) hpages (fun u hu hu' => ?_) (Nat.zero_le _)
    (by omega) hkeeps h hQ
  refine hpresent u (Nat.mul_le_mul_right _ hu) ?_
  unfold PGSIZE at *
  omega

/-! ## The loading loop -/

theorem segment_end {ph : Proghdr} (hv : ph.vaddr < 4294967296) (hm : ph.memsz < 4294967296)
    (h : ¬ uint (ph.vaddr + ph.memsz) < ph.vaddr) :
    uint (ph.vaddr + ph.memsz) = ph.vaddr + ph.memsz := by
  unfold uint at *
  omega

theorem Proghdr.read_lt (bs : List Byte) :
    (Proghdr.read bs).vaddr < 4294967296 ∧ (Proghdr.read bs).memsz < 4294967296 :=
  ⟨Bytes.word_lt _ _, Bytes.word_lt _ _⟩

theorem load_ends {Q : Option ℕ → State → Prop} {k off : ℕ} (hl : s.locked = true)
    (hL : ∀ {pn}, T pn → L.Usable pn) (hsz : sz < KERNBASE) (hkeeps : Keeps T m₀ m)
    (h : Inv T UserPage m d S none) (hS : Image L S ((sz + 4095) / PGSIZE))
    (hnone : ∀ m' S', Inv T UserPage m' d S' none → Keeps T m₀ m' → Q none { s with mem := m' })
    (hsome : ∀ sz' m' S', sz' < KERNBASE → Inv T UserPage m' d S' none → Keeps T m₀ m' →
      Image L S' ((sz' + 4095) / PGSIZE) → Q (some sz') { s with mem := m' }) :
    Ends L file D (load d k off sz) Q { s with mem := m } := by
  induction k generalizing m S off sz with
  | zero => exact hsome sz m S hsz h hkeeps hS
  | succ k ih =>
    unfold load
    refine Task.wp_bind.2 (readStruct_ends hl ?_)
    cases structAt file off proghdrSize with
    | none => exact hnone m S h hkeeps
    | some bs =>
      dsimp only
      obtain ⟨hvaddr, hmemsz⟩ := Proghdr.read_lt bs
      generalize Proghdr.read bs = ph at *
      split
      · exact ih hsz hkeeps h hS
      · split
        · exact hnone m S h hkeeps
        · split
          · exact hnone m S h hkeeps
          · next hfile hwrap =>
            rw [segment_end hvaddr hmemsz hwrap]
            -- the rest of the pass, once there are pages up to the end of the segment
            have hrest : ∀ sz' m' S', sz' < KERNBASE → ph.vaddr + ph.memsz ≤ sz' →
                Inv T UserPage m' d S' none → Keeps T m₀ m' →
                Image L S' ((sz' + 4095) / PGSIZE) →
                Ends L file D (if sz' = 0 then return none
                  else if ph.vaddr % PGSIZE ≠ 0 then return none
                  else do
                    let ok ← loaduvm d ph.vaddr ph.off ph.filesz
                    if ok = true then load d k (uint (off + proghdrSize)) sz' else return none) Q
                  { s with mem := m' } := by
              intro sz' m' S' hsz' hend h' hkeeps' hS'
              split
              · exact hnone m' S' h' hkeeps'
              · split
                · exact hnone m' S' h' hkeeps'
                · next haligned =>
                  refine Task.wp_bind.2 (loaduvm_ends hl (not_not.1 haligned) (by omega)
                    (fun u _ hu => ?_) hkeeps' h' fun b m'' S'' h'' hkeeps'' htab hpte => ?_)
                  · have hlt : u * PGSIZE < sz' := by omega
                    refine (hS'.present u ?_).2 ((lt_size_iff u sz').1 hlt)
                    unfold KERNBASE at hsz'
                    unfold UserPage
                    unfold PGSIZE at hlt
                    omega
                  · cases b with
                    | false => exact hnone m'' S'' h'' hkeeps''
                    | true => exact ih hsz' hkeeps'' h'' (hS'.congr htab hpte)
            refine Task.wp_bind.2 (vm_ends (allocuvm_ends hsz.le hL h hS.present (fun _ => ?_)
              (fun hlt => ?_) (fun m' S' h' hk _ _ => ?_) fun m' S' hnew hle h' hk hgrown => ?_))
            · rw [if_pos rfl]
              exact hnone m S h hkeeps
            · exact hrest sz m S hsz hlt.le h hkeeps hS
            · rw [if_pos rfl]
              exact hnone m' S' h' (hkeeps.trans hk)
            · refine hrest _ m' S' hnew le_rfl h' (hkeeps.trans hk) (hS.grown ?_ ?_ hgrown)
              · exact Nat.div_le_div_right (by omega)
              · unfold KERNBASE at hnew
                unfold PGSIZE
                omega

end Xv6.Exec
